import StatesLanguage.Intrinsic.Evaluate
import StatesLanguage.Proofs.Floats

/-! How MathAdd adds integers: exactly or not at all in the signed range, and as floats when one of
them is beyond it. -/
namespace StatesLanguage

namespace Intrinsic

variable {ids : Identifiers} {input context v w : Value} {f : Function} {x y : Argument} {a b : Int}

theorem add_signed (ha : a ≤ Value.maxSigned) (hb : b ≤ Value.maxSigned) :
    add (.int a) (.int b) =
      if Value.minInt ≤ a + b ∧ a + b ≤ Value.maxSigned then .ok (.int (a + b))
      else .error .overflow := by
  rw [add, Value.signed?_of_le ha, Value.signed?_of_le hb]

/-- Integers are added as floats when one of them is beyond the signed range. -/
theorem add_beyond (ha : Value.InRange a) (hb : Value.InRange b)
    (h : Value.maxSigned < a ∨ Value.maxSigned < b) :
    add (.int a) (.int b) = .ok (.float (Float.ofInt (rounded a + rounded b))) := by
  have hfinite : (Float.ofInt (rounded a + rounded b)).isFinite = true := by
    have hleft := natAbs_rounded_le ha.natAbs_lt
    have hright := natAbs_rounded_le hb.natAbs_lt
    exact (holds_ofInt (by omega)).isFinite
  have hsum : Value.ofFloat (Float.ofInt a + Float.ofInt b) =
      .float (Float.ofInt (rounded a + rounded b)) := by
    rw [ofInt_add_ofInt ha.natAbs_lt hb.natAbs_lt, Value.ofFloat, if_pos hfinite]
  rw [← hsum, add]
  rcases h with h | h
  · rw [Value.signed?_of_lt h]
    rfl
  · rw [Value.signed?_of_lt h]
    cases (Value.int a).signed? <;> rfl

/-- A call with two arguments that have values. -/
theorem evaluate_pair (hx : evaluateArgument (ids.part 0) input context f x = .ok v)
    (hy : evaluateArgument (ids.part 1) input context f y = .ok w) :
    (Call.mk f [x, y]).evaluate ids input context =
      (apply (ids []) f [v, w]).mapError (failure f) := by
  rw [Call.evaluate, evaluateCall, evaluateArguments, hx, evaluateArguments, hy, evaluateArguments]
  rfl

/-- The sum of two integers of the signed range is exact, or the call fails when there is no room
for it in that range. With an integer beyond the range the sum is a float: the nearest to the sum of
the nearest floats. -/
theorem integers_added (hx : evaluateArgument (ids.part 0) input context .mathAdd x = .ok (.int a))
    (hy : evaluateArgument (ids.part 1) input context .mathAdd y = .ok (.int b))
    (ha : Value.InRange a) (hb : Value.InRange b) :
    (a ≤ Value.maxSigned → b ≤ Value.maxSigned →
      (Value.minInt ≤ a + b ∧ a + b ≤ Value.maxSigned →
        (Call.mk .mathAdd [x, y]).evaluate ids input context = .ok (.int (a + b))) ∧
      (¬ (Value.minInt ≤ a + b ∧ a + b ≤ Value.maxSigned) →
        ∃ e, (Call.mk .mathAdd [x, y]).evaluate ids input context = .error e ∧
          e.name? = some "States.IntrinsicFailure")) ∧
    (Value.maxSigned < a ∨ Value.maxSigned < b →
      (Call.mk .mathAdd [x, y]).evaluate ids input context =
        .ok (.float (Float.ofInt (rounded a + rounded b)))) := by
  rw [evaluate_pair hx hy, apply]
  refine ⟨fun hsigned hsigned' => ⟨fun hroom => ?_, fun hroom => ?_⟩, fun hbeyond => ?_⟩
  · rw [add_signed hsigned hsigned', if_pos hroom]
    rfl
  · rw [add_signed hsigned hsigned', if_neg hroom]
    exact ⟨_, rfl, rfl⟩
  · rw [add_beyond ha hb hbeyond]
    rfl

/-- Adding one to the first integer beyond the signed range leaves its float. -/
theorem sum_beyond : Call.parse "States.MathAdd(9223372036854775808, 1)" =
      .ok ⟨.mathAdd, [.literal (.int 9223372036854775808), .literal (.int 1)]⟩ ∧
    (Call.mk .mathAdd [.literal (.int 9223372036854775808), .literal (.int 1)]).evaluate
        (fun _ => "") .null .null = .ok (.float (Float.ofInt 9223372036854775808)) := by
  have hsame : Float.ofInt 9223372036854775809 = Float.ofInt 9223372036854775808 := by
    have hrounded : rounded 9223372036854775809 = rounded 9223372036854775808 := by decide
    have hsum := @holds_ofInt 9223372036854775809 (by decide)
    exact (hrounded ▸ hsum).unique (holds_ofInt (by decide))
  have hx : evaluateArgument (Identifiers.part (fun _ => "") 0) .null .null .mathAdd
      (.literal (.int 9223372036854775808)) = .ok (.int 9223372036854775808) := by
    rw [evaluateArgument]
  have hy : evaluateArgument (Identifiers.part (fun _ => "") 1) .null .null .mathAdd
      (.literal (.int 1)) = .ok (.int 1) := by
    rw [evaluateArgument]
  have hsum := (integers_added hx hy (by decide) (by decide)).2 (.inl (by decide))
  have hvalue : rounded 9223372036854775808 + rounded 1 = 9223372036854775809 := by decide
  rw [hvalue, hsame] at hsum
  exact ⟨by cbv, hsum⟩

end Intrinsic

end StatesLanguage
