import Hara.Values.Atom

/-!
# The comparison of numbers

`numeric_compare` of `numeric.rs` takes any two values. Integers are compared as integers and
doubles as doubles; an integer and a double are brought to one power of two and compared as
integers. So nothing is rounded, and the order is that of the exact values. A double that is
infinite or no number is refused.
-/

namespace Hara.Values

/-- What `numeric_compare` sees of a value. -/
inductive Operand where
  | number (n : I64)
  | bigInteger (n : ℤ)
  | float (bits : BitVec 64)
  | other
  deriving DecidableEq

def finiteFloat (bits : BitVec 64) : Except String Double :=
  if h : bits.toNat / 2 ^ 52 % 2 ^ 11 ≠ 0x7ff then .ok ⟨bits, h⟩ else .error "non-finite number"

namespace Operand

def integerValue : Operand → Except String ℤ
  | number n => .ok n.toInt
  | bigInteger n => .ok n
  | _ => .error "expected an integer"

def numericCompare : Operand → Operand → Except String (Option Ordering)
  | other, _ | _, other => .ok none
  | float left, float right => do
    let left ← finiteFloat left
    let right ← finiteFloat right
    return some (left.partialCmp right)
  | float left, right => do
    let left ← finiteFloat left
    return some (compareIntegerToFloat (← integerValue right) left).swap
  | left, float right => do
    let right ← finiteFloat right
    return some (compareIntegerToFloat (← integerValue left) right)
  | left, right => return some (compare (← integerValue left) (← integerValue right))

def numericTotalCompare (left right : Operand) : Option Ordering :=
  match numericCompare left right with
  | .ok ordering => ordering
  | .error _ => none

/-- The exact value of a number; a double denotes its significand times a power of two. -/
def value? : Operand → Option ℚ
  | number n => some n.toInt
  | bigInteger n => some n
  | float bits => (finiteFloat bits).toOption.map Double.toRat
  | other => none

/-- The comparison says that the first number is not the greater one. -/
def AtMost (left right : Operand) : Prop :=
  ∃ ordering, numericTotalCompare left right = some ordering ∧ ordering.isLE

variable {a b c : Operand} {x y z : ℚ}

theorem finiteFloat_of_exact {bits : BitVec 64} (h : (float bits).value? = some x) :
    ∃ d, finiteFloat bits = .ok d ∧ d.toRat = x := by
  rw [value?] at h
  cases hd : finiteFloat bits with
  | error e =>
    rw [hd] at h
    cases h
  | ok d =>
    rw [hd] at h
    exact ⟨d, rfl, Option.some.inj h⟩

theorem compare_exact (ha : a.value? = some x) (hb : b.value? = some y) :
    numericCompare a b = .ok (some (compare x y)) := by
  have hswap (x y : ℚ) : (compare x y).swap = compare y x := Std.OrientedCmp.eq_swap.symm
  cases a with
  | other => cases ha
  | float bits =>
    obtain ⟨d, hd, rfl⟩ := finiteFloat_of_exact ha
    cases b with
    | other => cases hb
    | float bits' =>
      obtain ⟨d', hd', rfl⟩ := finiteFloat_of_exact hb
      simp only [numericCompare, hd, hd']
      rfl
    | number n | bigInteger n =>
      cases hb
      rw [← hswap, ← compareIntegerToFloat_eq]
      simp only [numericCompare, hd]
      rfl
  | number m | bigInteger m =>
    cases ha
    cases b with
    | other => cases hb
    | float bits' =>
      obtain ⟨d', hd', rfl⟩ := finiteFloat_of_exact hb
      rw [← compareIntegerToFloat_eq]
      simp only [numericCompare, hd']
      rfl
    | number n | bigInteger n =>
      cases hb
      rw [compare_intCast]
      rfl

theorem totalCompare_exact (ha : a.value? = some x) (hb : b.value? = some y) :
    numericTotalCompare a b = some (compare x y) := by
  rw [numericTotalCompare, compare_exact ha hb]

theorem atMost_iff (ha : a.value? = some x) (hb : b.value? = some y) : AtMost a b ↔ x ≤ y := by
  rw [← compare_le_iff_le, AtMost, totalCompare_exact ha hb]
  simp [Ordering.isLE_iff_ne_gt]

/-- The order of numbers is that of their exact values. So turning the operands round turns the
order round, any two numbers can be compared, and the order is transitive across the three
representations. -/
theorem numericCompare_exact (ha : a.value? = some x) (hb : b.value? = some y)
    (hc : c.value? = some z) :
    numericCompare a b = .ok (some (compare x y)) ∧
      numericTotalCompare b a = (numericTotalCompare a b).map Ordering.swap ∧
      (AtMost a b ∨ AtMost b a) ∧ (AtMost a b → AtMost b c → AtMost a c) := by
  refine ⟨compare_exact ha hb, ?_, ?_, ?_⟩
  · rw [totalCompare_exact ha hb, totalCompare_exact hb ha]
    exact congrArg some Std.OrientedCmp.eq_swap
  · rw [atMost_iff ha hb, atMost_iff hb ha]
    exact le_total x y
  · rw [atMost_iff ha hb, atMost_iff hb hc, atMost_iff ha hc]
    exact le_trans

/-- An integer beyond the precision of doubles, the double below it and the integer above it. -/
theorem numericCompare_exact_beyond :
    (AtMost (.float 0x4340000000000000#64) (.number 0x20000000000001#64) ∨
      AtMost (.number 0x20000000000001#64) (.float 0x4340000000000000#64)) ∧
    (AtMost (.float 0x4340000000000000#64) (.number 0x20000000000001#64) →
      AtMost (.number 0x20000000000001#64) (.bigInteger (2 ^ 53 + 2)) →
      AtMost (.float 0x4340000000000000#64) (.bigInteger (2 ^ 53 + 2))) :=
  (numericCompare_exact (a := .float 0x4340000000000000#64) (b := .number 0x20000000000001#64)
    (c := .bigInteger (2 ^ 53 + 2)) rfl rfl rfl).2.2

end Operand

end Hara.Values
