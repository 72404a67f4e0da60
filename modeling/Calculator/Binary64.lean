/-!
# The exact value of a binary64 number

A finite binary64 number is a mantissa times a power of two. Up to its sign it is a ratio of two
naturals, and as such it is rounded for display and tested for being whole.

* `isNegative_of_not_isNaN`: only for NaN does the sign have to be told.
* `den_pos_of_magnitude`: the denominator of the ratio is never zero.
-/

namespace Calculator

/-- The size of a binary64 number, its sign left aside. -/
inductive Magnitude where
  /-- The rational number `num / den`. -/
  | ratio (num den : Nat)
  | infinite
  /-- The size of NaN. -/
  | undefined
deriving DecidableEq, Repr

/-- The size of `x`, exactly. -/
def magnitude (x : Float) : Magnitude :=
  match x.toModel.unpack with
  | .notANumber => .undefined
  | .infinity _ => .infinite
  | .zero _ => .ratio 0 1
  | .finite _ mantissa exponent _ =>
    .ratio (mantissa * Nat.pow 2 exponent.toNat) (Nat.pow 2 (-exponent).toNat)

/-- The number carries a minus sign; so does the negative zero. A NaN may carry one too, but the
arithmetic leaves open which do, and so its sign is no part of `x` and has to be told. -/
def isNegative (x : Float) (nanSign : Bool := false) : Bool :=
  match x.toModel.unpack with
  | .notANumber => nanSign
  | .infinity .negative => true
  | .zero .negative => true
  | .finite .negative _ _ _ => true
  | _ => false

theorem unpack_of_isNaN {x : Float} (h : x.isNaN) : x.toModel.unpack = .notANumber := by
  rw [Float.isNaN, Float.Model.isNaN] at h
  cases hx : x.toModel.unpack with
  | notANumber => rfl
  | zero | infinity | finite => rw [hx] at h; cases h

theorem isNegative_of_isNaN {x : Float} (h : x.isNaN) (nanSign : Bool) :
    isNegative x nanSign = nanSign := by
  rw [isNegative, unpack_of_isNaN h]

theorem isNegative_of_not_isNaN {x : Float} (h : ¬x.isNaN) (nanSign : Bool) :
    isNegative x nanSign = isNegative x := by
  unfold isNegative
  cases hx : x.toModel.unpack with
  | notANumber => exact absurd (by rw [Float.isNaN, Float.Model.isNaN, hx]; rfl) h
  | zero sign | infinity sign | finite sign => cases sign <;> rfl

theorem magnitude_of_isNaN {x : Float} (h : x.isNaN) : magnitude x = .undefined := by
  rw [magnitude, unpack_of_isNaN h]

theorem den_pos_of_magnitude {x : Float} {num den : Nat} (h : magnitude x = .ratio num den) :
    0 < den := by
  rw [magnitude] at h
  split at h
  · simp at h
  · simp at h
  · simp only [Magnitude.ratio.injEq] at h
    omega
  · simp only [Magnitude.ratio.injEq] at h
    rw [← h.2]
    exact Nat.pow_pos (by decide)

end Calculator
