import Scriptlet.Proofs.Run.Semantics
import Scriptlet.Run.Operator

/-!
# `Scriptlet.Proofs.Run.Rules`: operators and native functions follow their rules

What operators make of values, and what native functions do, is what the rules say: each
function gives a reply exactly when its rules derive it (`unaryRule_iff`, `binaryRule_iff`,
`decides_iff`, `performs_iff`).
-/

set_option autoImplicit false

namespace Scriptlet

open Semantics

/-- The part of a machine that programs act on. -/
def Machine.world (m : Machine) : World :=
  ⟨m.scopes, m.identities, m.input, m.output, m.generator, m.clock⟩

namespace Semantics

/-- A value is falsy by the rules when the evaluator takes it for false: nil and false are, and
nothing else. -/
theorem falsy_iff {v : Value} : Falsy v ↔ v.isTruthy = false := by
  constructor
  · intro h
    cases h <;> rfl
  · intro h
    cases v with
    | nil => exact .nil
    | bool b =>
        cases b with
        | false => exact .false
        | true => cases h
    | _ => cases h

/-- All other values are taken for true. -/
theorem not_falsy_iff {v : Value} : ¬ Falsy v ↔ v.isTruthy = true := by
  rw [falsy_iff, Bool.not_eq_false]

/-- Negation is of conditions, so that it is defined on all values. -/
theorem unary_bang (v : Value) :
    Operator.unary (.mark .bang) v = .ok (.bool !v.isTruthy) := by
  cases v <;> rfl

/-- The other sign changes the sign of a number. -/
theorem unary_number {op : Kind} (hop : op ≠ .mark .bang) (x : Float) :
    Operator.unary op (.number x) = .ok (.number (-x)) := by
  unfold Operator.unary
  split <;> simp_all

/-- On anything but a number it is a fault. -/
theorem unary_other {op : Kind} (hop : op ≠ .mark .bang) {v : Value}
    (hv : ∀ x, v ≠ .number x) : Operator.unary op v = .error .operandMustBeNumber := by
  unfold Operator.unary
  split <;> simp_all

/-- A unary operator gives a reply exactly when one of its rules does. -/
theorem unaryRule_iff {op : Kind} {v : Value} {reply : Except Fault Value} :
    UnaryRule op v reply ↔ Operator.unary op v = reply := by
  constructor
  · intro h
    cases h with
    | notFalsy hv => rw [unary_bang, falsy_iff.1 hv, Bool.not_false]
    | notTruthy hv => rw [unary_bang, not_falsy_iff.1 hv, Bool.not_true]
    | negate hop => exact unary_number hop _
    | fault hop hv => exact unary_other hop hv
  · rintro rfl
    -- One rule applies to each operand, so its reply is the one that is given.
    by_cases hop : op = .mark .bang
    · subst hop
      rw [unary_bang]
      cases hv : v.isTruthy with
      | false => exact .notFalsy (falsy_iff.2 hv)
      | true => exact .notTruthy (not_falsy_iff.2 hv)
    · by_cases hv : ∃ x, v = .number x
      · obtain ⟨x, rfl⟩ := hv
        rw [unary_number hop]
        exact .negate hop
      · have hv : ∀ x, v ≠ .number x := fun x hx => hv ⟨x, hx⟩
        rw [unary_other hop hv]
        exact .fault hop hv

/-- What is neither two numbers nor two texts cannot be added. -/
theorem add_other {v w : Value} (hnumbers : ∀ x y, ¬ (v = .number x ∧ w = .number y))
    (htexts : ∀ s t, ¬ (v = .string s ∧ w = .string t)) :
    Operator.add v w = .error .operandsMustBeNumbersOrStrings := by
  unfold Operator.add
  split
  · exact absurd ⟨rfl, rfl⟩ (hnumbers _ _)
  · exact absurd ⟨rfl, rfl⟩ (htexts _ _)
  · rfl

/-- The operators that are left work on numbers. -/
theorem binary_numbers {op : Kind} (hop : op ∉ mixedOperators) (x y : Float) :
    Operator.binary op (.number x) (.number y) = .ok (Operator.arithmetic op x y) := by
  unfold Operator.binary
  split
  · exact absurd (by decide) hop
  · exact absurd (by decide) hop
  · exact absurd (by decide) hop
  · rfl

/-- The other operators have no reply for anything but two numbers. -/
theorem binary_other {op : Kind} (hop : op ∉ mixedOperators) {v w : Value}
    (hv : ∀ x y, ¬ (v = .number x ∧ w = .number y)) :
    Operator.binary op v w = .error .operandsMustBeNumbers := by
  unfold Operator.binary
  split
  · exact absurd (by decide) hop
  · exact absurd (by decide) hop
  · exact absurd (by decide) hop
  · split
    · exact absurd ⟨rfl, rfl⟩ (hv _ _)
    · rfl

/-- The last comparison is what is left of the operators on numbers. -/
theorem arithmetic_other {op : Kind} (hop : op ∉ numberOperators) (x y : Float) :
    Operator.arithmetic op x y = .bool (decide (x ≤ y)) := by
  unfold Operator.arithmetic
  split
  case h_7 => rfl
  all_goals exact absurd (by decide) hop

/-- Each rule of a binary operator says what the evaluator does. -/
theorem binaryRule_of {op : Kind} {v w : Value} {reply : Except Fault Value}
    (h : BinaryRule op v w reply) : Operator.binary op v w = reply := by
  cases h with
  | addFault hnumbers htexts => exact add_other hnumbers htexts
  | atMost hmixed hnumber => rw [binary_numbers hmixed, arithmetic_other hnumber]
  | fault hmixed hv => exact binary_other hmixed hv
  | _ => rfl

/-- One of the rules applies, whatever the operands are. -/
theorem binaryRule_total (op : Kind) (v w : Value) :
    BinaryRule op v w (Operator.binary op v w) := by
  -- Three operators take more than numbers. The others fault unless both operands are numbers.
  by_cases hmixed : op ∈ mixedOperators
  · simp only [mixedOperators, List.mem_cons, List.not_mem_nil, or_false] at hmixed
    rcases hmixed with rfl | rfl | rfl
    · exact .equal
    · exact .unequal
    · show BinaryRule _ v w (Operator.add v w)
      by_cases hnumbers : ∃ x y, v = .number x ∧ w = .number y
      · obtain ⟨x, y, rfl, rfl⟩ := hnumbers
        exact .addNumbers
      · by_cases htexts : ∃ s t, v = .string s ∧ w = .string t
        · obtain ⟨s, t, rfl, rfl⟩ := htexts
          exact .joinTexts
        · have hnumbers : ∀ x y, ¬ (v = .number x ∧ w = .number y) :=
            fun x y hxy => hnumbers ⟨x, y, hxy⟩
          have htexts : ∀ s t, ¬ (v = .string s ∧ w = .string t) :=
            fun s t hst => htexts ⟨s, t, hst⟩
          rw [add_other hnumbers htexts]
          exact .addFault hnumbers htexts
  · by_cases hv : ∃ x y, v = .number x ∧ w = .number y
    · obtain ⟨x, y, rfl, rfl⟩ := hv
      rw [binary_numbers hmixed]
      by_cases hnumber : op ∈ numberOperators
      · simp only [numberOperators, List.mem_cons, List.not_mem_nil, or_false] at hnumber
        rcases hnumber with rfl | rfl | rfl | rfl | rfl | rfl
        · exact .subtract
        · exact .multiply
        · exact .divide
        · exact .greater
        · exact .atLeast
        · exact .less
      · rw [arithmetic_other hnumber]
        exact .atMost hmixed hnumber
    · have hv : ∀ x y, ¬ (v = .number x ∧ w = .number y) := fun x y hxy => hv ⟨x, y, hxy⟩
      rw [binary_other hmixed hv]
      exact .fault hmixed hv

/-- A binary operator gives a reply exactly when one of its rules does. -/
theorem binaryRule_iff {op : Kind} {v w : Value} {reply : Except Fault Value} :
    BinaryRule op v w reply ↔ Operator.binary op v w = reply := by
  constructor
  · exact binaryRule_of
  · rintro rfl
    exact binaryRule_total op v w

/-- A logical operator is decided by its first operand when the rules say so: `or` by a true one,
and `and` by a false one. -/
theorem decides_iff {op : Kind} {v : Value} :
    Decides op v ↔ Operator.decides op v = true := by
  unfold Operator.decides
  constructor
  · intro h
    cases h with
    | or hv => simp [not_falsy_iff.1 hv]
    | and hop hv => simp [hop, falsy_iff.1 hv]
  · intro h
    split at h
    case isTrue hop =>
      subst hop
      exact .or (not_falsy_iff.2 h)
    case isFalse hop => exact .and hop (falsy_iff.2 (by simpa using h))

/-! ### Native functions -/

/-- The first argument is nil if there is none. -/
theorem argument_zero (args : List Value) : argument args 0 = args.headD .nil := by
  cases args <;> rfl

/-- So is the second one. -/
theorem argument_one (args : List Value) : argument args 1 = args.tail.headD .nil := by
  rcases args with _ | ⟨_, _ | ⟨_, _⟩⟩ <;> rfl

/-- A range is refused when one of its ends is not finite, or when they are the wrong way round. -/
theorem validRange_iff {low high : Float} :
    ValidRange low high ↔ (!low.isFinite || !high.isFinite || decide (high < low)) = false := by
  simp [ValidRange, and_assoc]

/-- Drawing from a range, in terms of the arguments. -/
theorem run_random {args : List Value} {low high : Float} (hlow : argument args 0 = .number low)
    (hhigh : argument args 1 = .number high) (m : Machine) :
    Native.run .randomRangeRounded args m = Native.runRandomRange low high m := by
  rw [argument_zero] at hlow
  rw [argument_one] at hhigh
  simp only [Native.run, Native.runRandomRangeRounded, hlow, hhigh]

/-- A draw takes two numbers. -/
theorem run_random_other {args : List Value}
    (h : ∀ x y, ¬ (argument args 0 = .number x ∧ argument args 1 = .number y)) (m : Machine) :
    Native.run .randomRangeRounded args m
      = (.error (.invalidArgument "random_range_rounded expects two numbers"), m) := by
  rw [argument_zero, argument_one] at h
  simp only [Native.run, Native.runRandomRangeRounded]
  split
  case h_1 hlow hhigh => exact absurd ⟨hlow, hhigh⟩ (h _ _)
  case h_2 => rfl

/-- A range that is not valid is refused, and nothing is drawn. -/
theorem runRandomRange_invalid {low high : Float} (h : ¬ ValidRange low high) (m : Machine) :
    Native.runRandomRange low high m
      = (.error (.invalidArgument ("invalid random range " ++ Native.rangeText low high)), m) := by
  rw [validRange_iff, Bool.not_eq_false] at h
  unfold Native.runRandomRange
  rw [if_pos h]

/-- A valid range may still be too wide: its ends are finite, but not their difference. -/
theorem runRandomRange_wide {low high : Float} (h : ValidRange low high)
    (hwidth : (high - low).isFinite = false) (m : Machine) :
    Native.runRandomRange low high m = (.error (.invalidArgument
      ("random range " ++ Native.rangeText low high ++ " is too wide")), m) := by
  rw [validRange_iff] at h
  unfold Native.runRandomRange
  rw [if_neg (by simp [h]), if_pos (by simp [hwidth])]

/-- From every other range a number is drawn and rounded, and the generator goes on. -/
theorem runRandomRange_valid {low high : Float} (h : ValidRange low high)
    (hwidth : (high - low).isFinite = true) (m : Machine) :
    Native.runRandomRange low high m
      = (.ok (.number (Binary64.roundHalfAway (m.generator.between low high).1)),
        { m with generator := (m.generator.between low high).2 }) := by
  rw [validRange_iff] at h
  unfold Native.runRandomRange
  rw [if_neg (by simp [h]), if_neg (by simp [hwidth])]

/-- A conversion touches nothing else. -/
theorem run_toDouble (args : List Value) (m : Machine) :
    Native.run .toDouble args m = (Native.convertToDouble (argument args 0), m) := by
  rw [argument_zero]
  rfl

/-- Only numbers and texts can be converted to numbers. -/
theorem convertToDouble_other {v : Value} (hnumber : ∀ x, v ≠ .number x)
    (htext : ∀ s, v ≠ .string s) :
    Native.convertToDouble v = .error (.conversion v.typeName "number") := by
  unfold Native.convertToDouble
  split
  case h_1 x => exact absurd rfl (hnumber x)
  case h_2 s => exact absurd rfl (htext s)
  case h_3 => rfl

/-- Both print functions write a text. -/
theorem run_print {op : Native} {args : List Value} {text : String}
    (h : (op = .print ∧ text = (argument args 0).text) ∨
      (op = .printLine ∧ text = (argument args 0).text ++ "\n")) (m : Machine) :
    op.run args m = Native.runWrite text m := by
  rcases h with ⟨rfl, rfl⟩ | ⟨rfl, rfl⟩ <;> rw [argument_zero] <;> rfl

/-- A native function replies as its rules say. -/
theorem performs_of {op : Native} {args : List Value} {m : Machine}
    {reply : Except Fault Value} {σ : World} (h : Performs op args m.world reply σ) :
    (op.run args m).1 = reply ∧ (op.run args m).2.world = σ := by
  -- The rules are about worlds, the function about machines: each case brings them together.
  generalize hworld : m.world = σ₀ at h
  cases h with
  | clock hclock | clockFault hclock =>
      subst hworld
      have hclock : m.clock.read = _ := hclock
      simp [Native.run, Native.runClock, hclock, Machine.world]
  | line hline | noLine hline | lineFault hline =>
      subst hworld
      have hline : m.input.readLine = _ := hline
      simp [Native.run, Native.runReadLine, hline, Machine.world]
  | random hlow hhigh hvalid hwidth hdraw =>
      subst hworld
      have hdraw : m.generator.between _ _ = _ := hdraw
      rw [run_random hlow hhigh, runRandomRange_valid hvalid hwidth, hdraw]
      exact ⟨rfl, rfl⟩
  | rangeFault hlow hhigh hvalid =>
      rw [run_random hlow hhigh, runRandomRange_invalid hvalid]
      exact ⟨rfl, hworld⟩
  | widthFault hlow hhigh hvalid hwidth =>
      rw [run_random hlow hhigh, runRandomRange_wide hvalid hwidth]
      exact ⟨rfl, hworld⟩
  | boundsFault hbounds =>
      rw [run_random_other hbounds]
      exact ⟨rfl, hworld⟩
  | sameNumber hx =>
      rw [run_toDouble, hx]
      exact ⟨rfl, hworld⟩
  | readNumber hs hread | readFault hs hread =>
      rw [run_toDouble, hs]
      exact ⟨by simp [Native.convertToDouble, hread], hworld⟩
  | conversionFault hnumber htext =>
      rw [run_toDouble, convertToDouble_other hnumber htext]
      exact ⟨rfl, hworld⟩
  | toText => exact ⟨by rw [argument_zero]; rfl, hworld⟩
  | print htext hfits | printFault htext hfits =>
      subst hworld
      have hfits : m.output.fits _ = _ := hfits
      rw [run_print htext]
      simp [Native.runWrite, hfits, Machine.write, Machine.world]
  | constant hreply | hostFault hreply =>
      exact ⟨by simp [Native.run, Native.answer, hreply], hworld⟩
  | passed hreply =>
      exact ⟨by simp [Native.run, Native.answer, hreply, argument], hworld⟩

/-- A text is written if the output takes it, and else there is a fault and nothing is written. -/
theorem performs_print {op : Native} {args : List Value} {text : String}
    (h : (op = .print ∧ text = (argument args 0).text) ∨
      (op = .printLine ∧ text = (argument args 0).text ++ "\n")) (m : Machine) :
    Performs op args m.world (op.run args m).1 (op.run args m).2.world := by
  rw [run_print h]
  cases hfits : m.output.fits text with
  | true =>
      have hrun : Native.runWrite text m = (.ok .nil, m.write text) := by
        simp [Native.runWrite, hfits]
      rw [hrun]
      exact .print h hfits
  | false =>
      have hrun : Native.runWrite text m = (.error (.io sinkFullWords), m.write text) := by
        simp [Native.runWrite, hfits]
      rw [hrun]
      exact .printFault h hfits

/-- The rules say what every native function does. -/
theorem performs_total (op : Native) (args : List Value) (m : Machine) :
    Performs op args m.world (op.run args m).1 (op.run args m).2.world := by
  cases op with
  | clock =>
      cases hclock : m.clock.read with
      | mk reading later =>
          simp only [Native.run, Native.runClock, hclock]
          cases reading with
          | ok seconds => exact .clock hclock
          | error words => exact .clockFault hclock
  | readLine =>
      cases hline : m.input.readLine with
      | mk line rest =>
          simp only [Native.run, Native.runReadLine, hline]
          cases line with
          | ok line =>
              cases line with
              | some line => exact .line hline
              | none => exact .noLine hline
          | error words => exact .lineFault hline
  | randomRangeRounded =>
      by_cases hbounds : ∃ x y, argument args 0 = .number x ∧ argument args 1 = .number y
      · obtain ⟨low, high, hlow, hhigh⟩ := hbounds
        -- The range is checked before its width, and both before a number is drawn.
        rw [run_random hlow hhigh]
        by_cases hvalid : ValidRange low high
        · cases hwidth : (high - low).isFinite with
          | true =>
              rw [runRandomRange_valid hvalid hwidth]
              exact .random hlow hhigh hvalid hwidth rfl
          | false =>
              rw [runRandomRange_wide hvalid hwidth]
              exact .widthFault hlow hhigh hvalid hwidth
        · rw [runRandomRange_invalid hvalid]
          exact .rangeFault hlow hhigh hvalid
      · have hbounds : ∀ x y, ¬ (argument args 0 = .number x ∧ argument args 1 = .number y) :=
          fun x y hxy => hbounds ⟨x, y, hxy⟩
        rw [run_random_other hbounds]
        exact .boundsFault hbounds
  | toDouble =>
      rw [run_toDouble]
      by_cases hnumber : ∃ x, argument args 0 = .number x
      · obtain ⟨x, hx⟩ := hnumber
        rw [hx]
        exact .sameNumber hx
      · by_cases htext : ∃ s, argument args 0 = .string s
        · obtain ⟨s, hs⟩ := htext
          rw [hs]
          cases hread : Number.read? (Text.trim s.toList) with
          | some x => simpa [Native.convertToDouble, hread] using Performs.readNumber hs hread
          | none => simpa [Native.convertToDouble, hread] using Performs.readFault hs hread
        · have hnumber : ∀ x, argument args 0 ≠ .number x := fun x hx => hnumber ⟨x, hx⟩
          have htext : ∀ s, argument args 0 ≠ .string s := fun s hs => htext ⟨s, hs⟩
          rw [convertToDouble_other hnumber htext]
          exact .conversionFault hnumber htext
  | toText =>
      show Performs .toText args m.world (.ok (.string (args.headD .nil).text)) m.world
      rw [← argument_zero]
      exact .toText
  | print => exact performs_print (.inl ⟨rfl, rfl⟩) m
  | printLine => exact performs_print (.inr ⟨rfl, rfl⟩) m
  | host function =>
      simp only [Native.run, Native.answer]
      split
      case h_1 hreply => exact .constant hreply
      case h_2 hreply => exact .passed hreply
      case h_3 hreply => exact .hostFault hreply

/-- A host function gives a reply and leaves a world exactly when one of its rules says so. -/
theorem performs_iff {op : Native} {args : List Value} {m : Machine}
    {reply : Except Fault Value} {σ : World} :
    Performs op args m.world reply σ ↔
      (op.run args m).1 = reply ∧ (op.run args m).2.world = σ := by
  constructor
  · exact performs_of
  · rintro ⟨rfl, rfl⟩
    exact performs_total op args m

end Semantics

end Scriptlet
