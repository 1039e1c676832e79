import Mathlib.Data.List.Forall2
import Scriptlet.Proofs.Run.Native

/-!
# `Scriptlet.Proofs.Run.Look`: what is seen of values

Operators and native functions see little of a function value: its identity, its name, the
number of its parameters, and whether it is native. They never see the scope that it remembers
or the trees of its body. What they see is its `Look`.

* A `Resemblance` is a relation between values that look the same. Operators make the same of
  such values (`Operator.unary_look`, `Operator.binary_look`), and native functions do the same
  to them and reply with values that are again related (`Resemblance.run`).
* `Native.blind_run`: native functions neither see nor touch the scopes, the current scope and
  the journal.
-/

set_option autoImplicit false

namespace Scriptlet

namespace Value

variable {v v' w w' : Value}

/-- Values that look the same are the same, unless they are functions. -/
theorem look_cases (h : v.look = v'.look) :
    v' = v ∨ ∃ f f', v = .callable f ∧ v' = .callable f' ∧ f.identity = f'.identity ∧
      f.name = f'.name ∧ f.arity = f'.arity ∧ f.isNative = f'.isNative := by
  cases v with
  | callable f =>
      cases v' with
      | callable f' =>
          obtain ⟨hidentity, hname, harity, hnative⟩ := Look.callable.inj h
          exact .inr ⟨f, f', rfl, rfl, hidentity, hname, harity, hnative⟩
      | _ => cases h
  | _ =>
      cases v' <;> cases h
      exact .inl rfl

/-- Values that look the same have one text, since the text of a function shows its name only. -/
theorem text_eq_of_look (h : v.look = v'.look) : v.text = v'.text := by
  obtain rfl | ⟨f, f', rfl, rfl, -, hname, -, hnative⟩ := look_cases h
  · rfl
  · show f.text = f'.text
    unfold Callable.text
    rw [hname, hnative]

/-- They count alike as conditions. -/
theorem isTruthy_eq_of_look (h : v.look = v'.look) : v.isTruthy = v'.isTruthy := by
  obtain rfl | ⟨f, f', rfl, rfl, -⟩ := look_cases h <;> rfl

/-- Function values are compared by identity, which is seen. -/
theorem beq_eq_of_look (hv : v.look = v'.look) (hw : w.look = w'.look) :
    (v == w) = (v' == w') := by
  show Value.beq v w = Value.beq v' w'
  -- Only functions may look the same and not be the same, so there are four cases.
  obtain rfl | ⟨f, f', rfl, rfl, hf, -⟩ := look_cases hv
  · obtain rfl | ⟨g, g', rfl, rfl, hg, -⟩ := look_cases hw
    · rfl
    · cases v' with
      | callable f =>
          show (_ == _) = (_ == _)
          rw [hg]
      | _ => rfl
  · obtain rfl | ⟨g, g', rfl, rfl, hg, -⟩ := look_cases hw
    · cases w' with
      | callable g =>
          show (_ == _) = (_ == _)
          rw [hf]
      | _ => rfl
    · show (_ == _) = (_ == _)
      rw [hf, hg]

end Value

/-! ### Operators -/

namespace Operator

variable {v v' w w' : Value}

/-- A sign makes the same of values that look the same, and never gives a function. -/
theorem unary_look (op : Kind) (h : v.look = v'.look) : unary op v = unary op v' := by
  obtain rfl | ⟨f, f', rfl, rfl, -⟩ := Value.look_cases h
  · rfl
  · cases op with
    | mark m => cases m <;> rfl
    | _ => rfl

/-- So does an operator between two operands. It compares functions, and what it compares is part of
their look. -/
theorem binary_look (op : Kind) (hv : v.look = v'.look) (hw : w.look = w'.look) :
    binary op v w = binary op v' w' := by
  unfold binary
  rw [Value.beq_eq_of_look hv hw]
  -- No other operator takes a function.
  obtain rfl | ⟨f, f', rfl, rfl, -⟩ := Value.look_cases hv
  · obtain rfl | ⟨g, g', rfl, rfl, -⟩ := Value.look_cases hw
    · rfl
    · cases v' <;> rfl
  · rfl

/-- A logical operator decides by what is seen of its first operand. -/
theorem decides_look (op : Kind) (h : v.look = v'.look) : decides op v = decides op v' := by
  unfold decides
  rw [Value.isTruthy_eq_of_look h]

end Operator

/-! ### Replies -/

/-- Replies with related values, or with the same fault. -/
inductive Value.Replies (V : Value → Value → Prop) :
    Except Fault Value → Except Fault Value → Prop where
  | ok {v v' : Value} : V v v' → Value.Replies V (.ok v) (.ok v')
  | error (fault : Fault) : Value.Replies V (.error fault) (.error fault)

/-- Related values look the same, and values other than functions are related to themselves. -/
structure Resemblance (V : Value → Value → Prop) : Prop where
  look {v v' : Value} : V v v' → v.look = v'.look
  refl {v : Value} : (∀ f, v ≠ .callable f) → V v v

namespace Resemblance

variable {V : Value → Value → Prop} {args args' : List Value}

/-- A constant is related to itself. -/
theorem ofLiteral (hV : Resemblance V) (l : Literal) :
    V (Value.ofLiteral l) (Value.ofLiteral l) :=
  hV.refl (Value.ofLiteral_ne_callable l)

/-- So is nil. -/
theorem nil (hV : Resemblance V) : V .nil .nil := hV.ofLiteral .nil

/-- A reply without a function value is related to itself. -/
theorem reply (hV : Resemblance V) {r : Except Fault Value}
    (h : ∀ f, r ≠ .ok (.callable f)) : Value.Replies V r r := by
  cases r with
  | error fault => exact .error fault
  | ok v => exact .ok (hV.refl fun f hf => h f (congrArg Except.ok hf))

/-- Replies of a unary operator are related. -/
theorem unary (hV : Resemblance V) (op : Kind) {v v' : Value} (h : V v v') :
    Value.Replies V (Operator.unary op v) (Operator.unary op v') := by
  rw [← Operator.unary_look op (hV.look h)]
  exact hV.reply fun _ => Operator.unary_ne_callable

/-- Replies of a binary operator are related. -/
theorem binary (hV : Resemblance V) (op : Kind) {v v' w w' : Value} (hv : V v v')
    (hw : V w w') :
    Value.Replies V (Operator.binary op v w) (Operator.binary op v' w') := by
  rw [← Operator.binary_look op (hV.look hv) (hV.look hw)]
  exact hV.reply fun _ => Operator.binary_ne_callable

/-! ### Native functions -/

/-- The first arguments are related, or both are missing and stand for nil. -/
theorem headD (hV : Resemblance V) (h : List.Forall₂ V args args') :
    V (args.headD .nil) (args'.headD .nil) := by
  cases h with
  | nil => exact hV.nil
  | cons hv _ => exact hv

/-- Arguments at the same place are related, and so are those that are missing. -/
theorem getElem? (hV : Resemblance V) (h : List.Forall₂ V args args') (place : Nat) :
    V (args[place]?.getD .nil) (args'[place]?.getD .nil) := by
  induction h generalizing place with
  | nil => exact hV.nil
  | cons hv _ ih =>
      cases place with
      | zero => exact hv
      | succ place => exact ih place

/-- What is seen of related arguments is the same. -/
theorem looks_eq (hV : Resemblance V) (h : List.Forall₂ V args args') :
    args.map Value.look = args'.map Value.look := by
  induction h with
  | nil => rfl
  | cons hv _ ih => rw [List.map_cons, List.map_cons, hV.look hv, ih]

/-- What a host function answers to related arguments. -/
theorem answer (hV : Resemblance V) (function : HostFunction) (h : List.Forall₂ V args args') :
    Value.Replies V (Native.answer function args) (Native.answer function args') := by
  unfold Native.answer
  rw [hV.looks_eq h]
  split
  case h_1 value _ => exact .ok (hV.ofLiteral value)
  case h_2 place _ => exact .ok (hV.getElem? h place)
  case h_3 fault _ => exact .error fault

/-- Native functions do the same to related arguments and give related replies. -/
theorem run (hV : Resemblance V) (op : Native) (h : List.Forall₂ V args args') (m : Machine) :
    Value.Replies V (op.run args m).1 (op.run args' m).1 ∧
      (op.run args m).2 = (op.run args' m).2 := by
  -- What is seen of arguments is the same for related ones, except by a host.
  have hsame : (∀ function, op ≠ .host function) → op.run args m = op.run args' m →
      Value.Replies V (op.run args m).1 (op.run args' m).1 ∧
        (op.run args m).2 = (op.run args' m).2 := by
    intro hop heq
    rw [← heq]
    exact ⟨hV.reply fun _ => Native.run_ne_callable hop, rfl⟩
  have harg := hV.look (hV.headD h)
  have harg' : (args.tail.headD .nil).look = (args'.tail.headD .nil).look := by
    cases h with
    | nil => rfl
    | cons _ hrest => exact hV.look (hV.headD hrest)
  cases op with
  | clock | readLine => exact hsame (fun _ hop => by cases hop) rfl
  | randomRangeRounded =>
      refine hsame (fun _ hop => by cases hop) ?_
      show Native.runRandomRangeRounded _ _ m = Native.runRandomRangeRounded _ _ m
      generalize args.headD .nil = low, args'.headD .nil = low' at harg
      generalize args.tail.headD .nil = high, args'.tail.headD .nil = high' at harg'
      obtain rfl | ⟨f, f', rfl, rfl, -⟩ := Value.look_cases harg
      · obtain rfl | ⟨g, g', rfl, rfl, -⟩ := Value.look_cases harg'
        · rfl
        · cases low' <;> rfl
      · rfl
  | toDouble =>
      refine hsame (fun _ hop => by cases hop) ?_
      show (Native.convertToDouble _, m) = (Native.convertToDouble _, m)
      obtain heq | ⟨f, f', hf, hf', -⟩ := Value.look_cases harg
      · rw [heq]
      · rw [hf, hf']
        rfl
  | toText | print | printLine =>
      refine hsame (fun _ hop => by cases hop) ?_
      simp only [Native.run, Value.text_eq_of_look harg]
  | host function => exact ⟨hV.answer function h, rfl⟩

end Resemblance

namespace Native

/-- The operation neither sees nor touches the scopes, the current scope and the journal. -/
def Blind (f : Machine → NativeReply) : Prop :=
  ∀ m scopes current journal, f { m with scopes, current, journal } =
    ((f m).1, { (f m).2 with scopes, current, journal })

/-- The clock reads its own readings and nothing else. -/
theorem blind_runClock : Blind runClock := by
  intro m scopes current journal
  simp only [runClock]
  split <;> rfl

/-- Reading a line is a matter of the input. -/
theorem blind_runReadLine : Blind runReadLine := by
  intro m scopes current journal
  simp only [runReadLine]
  split <;> rfl

/-- Drawing from a range is a matter of the generator. -/
theorem blind_runRandomRange (low high : Float) : Blind (runRandomRange low high) := by
  intro m scopes current journal
  unfold runRandomRange
  by_cases hrange : (!low.isFinite || !high.isFinite || high < low) = true
  · simp only [if_pos hrange]
  · by_cases hwidth : (!(high - low).isFinite) = true
    · simp only [if_neg hrange, if_pos hwidth]
    · simp only [if_neg hrange, if_neg hwidth]

/-- So it is when the range is given by two values. -/
theorem blind_runRandomRangeRounded (low high : Value) :
    Blind (runRandomRangeRounded low high) := by
  unfold runRandomRangeRounded
  split
  · exact blind_runRandomRange _ _
  · exact fun _ _ _ _ => rfl

/-- No native function looks at scopes. What it replies is the same in every scope and with every
journal. -/
theorem blind_run (op : Native) (args : List Value) : Blind (op.run args) := by
  cases op with
  | clock => exact blind_runClock
  | readLine => exact blind_runReadLine
  | randomRangeRounded => exact blind_runRandomRangeRounded _ _
  | print | printLine | toDouble | toText | host _ => exact fun _ _ _ _ => rfl

end Native

end Scriptlet
