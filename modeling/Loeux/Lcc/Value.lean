import Loeux.Lcc.Gen
/-!
# The values of expressions

What C gives for an expression of numbers and variables, in signed 64-bit arithmetic, and
which operands it evaluates on the way. The meaning of the binary operators is a parameter:
C's own is one, and the operators as the processor computes them are another.
-/

namespace Lcc

open Lib Rv64

/-! ## Operators -/

def truth (p : Prop) [Decidable p] : Word := if p then 1 else 0

/-- C's binary operators on signed numbers of 64 bits. `>>` keeps the sign; a division by 0 and a
shift count outside 0 to 63 have no result. -/
def cBinary (op : BinOp) (x y : Word) : Option Word :=
  match op with
  | .mul => some (BitVec.ofInt 64 (x.toInt * y.toInt))
  | .div => if y.toInt = 0 then none else some (BitVec.ofInt 64 (x.toInt.tdiv y.toInt))
  | .rem => if y.toInt = 0 then none else some (BitVec.ofInt 64 (x.toInt.tmod y.toInt))
  | .add => some (BitVec.ofInt 64 (x.toInt + y.toInt))
  | .sub => some (BitVec.ofInt 64 (x.toInt - y.toInt))
  | .shl => if 0 ≤ y.toInt ∧ y.toInt < 64 then some (BitVec.ofInt 64 (x.toInt * 2 ^ y.toInt.toNat)) else none
  | .shr => if 0 ≤ y.toInt ∧ y.toInt < 64 then some (BitVec.ofInt 64 (x.toInt / 2 ^ y.toInt.toNat)) else none
  | .lt => some (truth (x.toInt < y.toInt))
  | .le => some (truth (x.toInt ≤ y.toInt))
  | .gt => some (truth (x.toInt > y.toInt))
  | .ge => some (truth (x.toInt ≥ y.toInt))
  | .eq => some (truth (x.toInt = y.toInt))
  | .ne => some (truth (x.toInt ≠ y.toInt))
  | .and => some (x &&& y)
  | .xor => some (x ^^^ y)
  | .or => some (x ||| y)
  | .land | .lor => none

/-- The same with the shift to the right that brings in zeros, and with the processor's results
where C has none. -/
def logicalBinary (op : BinOp) (x y : Word) : Word :=
  match op with
  | .shr => x >>> (y.toNat % 64)
  | .shl => x <<< (y.toNat % 64)
  | .div => (cBinary .div x y).getD (-1)
  | .rem => (cBinary .rem x y).getD x
  | op => (cBinary op x y).getD 0

/-- The meaning of the binary operators. -/
abbrev Binary := BinOp → Word → Word → Option Word

def logical : Binary := fun op x y => some (logicalBinary op x y)

/-! ## Expressions -/

def value (bin : Binary) (ρ : Nat → Word) : Expr → Option Word
  | .int bits | .char bits => some (BitVec.ofInt 64 (long64 bits))
  | .var sym _ => some (ρ sym)
  | .unary .plus a => value bin ρ a
  | .unary .minus a => (value bin ρ a).map fun x => BitVec.ofInt 64 (-x.toInt)
  | .unary .not a => (value bin ρ a).map fun x => truth (x.toInt = 0)
  | .unary .compl a => (value bin ρ a).map fun x => BitVec.ofInt 64 (-x.toInt - 1)
  | .binary .land a b => (value bin ρ a).bind fun x =>
    if x.toInt = 0 then some 0 else (value bin ρ b).map fun y => truth (y.toInt ≠ 0)
  | .binary .lor a b => (value bin ρ a).bind fun x =>
    if x.toInt ≠ 0 then some 1 else (value bin ρ b).map fun y => truth (y.toInt ≠ 0)
  | .binary op a b => (value bin ρ a).bind fun x => (value bin ρ b).bind fun y => bin op x y
  | .cond a b c => (value bin ρ a).bind fun x => if x.toInt ≠ 0 then value bin ρ b else value bin ρ c
  | _ => none

/-- The value is a number other than 0. -/
def holds (v : Option Word) : Bool := v.any fun x => x.toInt ≠ 0

/-- Which of the right operands of `&&` and `||` and the branches of `?:` are evaluated, in the
order of the text, where the expression itself is evaluated if `on`. -/
def evaluated (bin : Binary) (ρ : Nat → Word) : Expr → Bool → List Bool
  | .unary _ a, on => evaluated bin ρ a on
  | .binary .land a b, on =>
    evaluated bin ρ a on ++ (on && holds (value bin ρ a)) :: evaluated bin ρ b (on && holds (value bin ρ a))
  | .binary .lor a b, on =>
    evaluated bin ρ a on ++ (on && !holds (value bin ρ a)) :: evaluated bin ρ b (on && !holds (value bin ρ a))
  | .binary _ a b, on => evaluated bin ρ a on ++ evaluated bin ρ b on
  | .cond a b c, on =>
    evaluated bin ρ a on ++ (on && holds (value bin ρ a)) :: (evaluated bin ρ b (on && holds (value bin ρ a)) ++
      (on && !holds (value bin ρ a)) :: evaluated bin ρ c (on && !holds (value bin ρ a)))
  | _, _ => []

end Lcc
