import Mathlib
import Scriptlet.Lexical.Piece
import Scriptlet.Number.Text

/-!
# `Scriptlet.Proofs.Number.ReadBack`: a number reads back from its text

The text of a finite number whose sign bit is clear consists of digits, with a point between
two of them or none. Read as a decimal, it names the same double again (`Number.text_reads`).

Along the way:

* `Binary64.nearest_mul`: the nearest double depends on a quotient only, not on the two numbers
  it is made of;
* `Binary64.nearest_decode`: the nearest double to what a finite double stands for is itself;
* `Decimal.magnitude_shortest`: the shortest decimal of a double names it. Each candidate was
  checked for this before it was taken, so what is left is the last resort, the decimal
  expansion in full.
-/

set_option autoImplicit false

namespace Scriptlet

/-! ### Quotients -/

namespace Binary64

/-- Rounding depends on the quotient only. -/
theorem roundHalfEven_mul {k : Nat} (hk : 0 < k) (num den : Nat) :
    roundHalfEven (k * num) (k * den) = roundHalfEven num den := by
  have htwice : 2 * (k * num % (k * den)) = k * (2 * (num % den)) := by
    rw [Nat.mul_mod_mul_left, Nat.mul_left_comm]
  unfold roundHalfEven
  simp only [htwice, Nat.mul_div_mul_left _ _ hk, Nat.mul_lt_mul_left hk]

/-- The nearest double depends on the quotient only. -/
theorem nearest_mul {k : Nat} (hk : 0 < k) (num den : Nat) :
    nearest (k * num) (k * den) = nearest num den := by
  unfold nearest
  simp only [Nat.mul_assoc k, Nat.mul_div_mul_left _ _ hk, roundHalfEven_mul hk]

/-- The number of fractions between two powers of two. -/
theorem span_eq : span = 2 ^ 52 := rfl

/-- There are some. -/
theorem span_pos : 0 < span := by decide

/-- The least double is a part of the unit, so it has a positive denominator. -/
theorem grain_pos : 0 < grain := by decide +kernel

/-- A whole multiple of the finest grid that needs no rounding is its own nearest double. -/
theorem nearest_exact {significand step : Nat}
    (hstep : Nat.log2 (significand * 2 ^ step) - 52 = step)
    (hfinite : step * span + significand ≤ infinity) :
    nearest (significand * 2 ^ step) grain = step * span + significand := by
  have hquotient : significand * 2 ^ step * grain / grain = significand * 2 ^ step :=
    Nat.mul_div_cancel _ grain_pos
  have hround :
      roundHalfEven (significand * 2 ^ step * grain) (grain * 2 ^ step) = significand := by
    have hpos : 0 < grain * 2 ^ step := Nat.mul_pos grain_pos (Nat.two_pow_pos step)
    have hscaled : significand * 2 ^ step * grain = significand * (grain * 2 ^ step) := by
      rw [Nat.mul_assoc, Nat.mul_comm (2 ^ step)]
    rw [hscaled]
    unfold roundHalfEven
    simp [Nat.mul_div_cancel _ hpos, hpos]
  unfold nearest
  simp only [hquotient, hstep, Nat.pow_eq, hround]
  exact Nat.min_eq_right hfinite

/-- A significand with its hidden bit has 53 bits, and each step adds one. -/
theorem log2_significand {significand : Nat} (hlow : span ≤ significand)
    (hhigh : significand < 2 * span) (step : Nat) :
    Nat.log2 (significand * 2 ^ step) = step + 52 := by
  have hspan := span_pos
  rw [Nat.log2_eq_iff (Nat.mul_ne_zero (by omega) (by positivity))]
  constructor
  · rw [Nat.pow_add, Nat.mul_comm, ← span_eq]
    exact Nat.mul_le_mul_right _ hlow
  · calc significand * 2 ^ step < 2 * span * 2 ^ step :=
          Nat.mul_lt_mul_of_pos_right hhigh (Nat.two_pow_pos step)
      _ = 2 ^ (step + 52 + 1) := by rw [span_eq]; ring

/-- What a finite double stands for is nearest to this double. -/
theorem nearest_decode {magnitude : Nat} (h : magnitude < infinity) :
    nearest ((decode magnitude).1 * 2 ^ (decode magnitude).2) grain = magnitude := by
  unfold decode
  split
  case isTrue hsmall =>
    -- A subnormal number is a whole multiple of the finest grid as it is.
    have hlog : Nat.log2 (magnitude * 2 ^ 0) - 52 = 0 := by
      rcases Nat.eq_zero_or_pos magnitude with rfl | hpos
      · rfl
      · have hlt : Nat.log2 (magnitude * 2 ^ 0) < 52 := by
          rw [Nat.pow_zero, Nat.mul_one]
          exact (Nat.log2_lt (by omega)).2 hsmall
        omega
    have hexact := nearest_exact hlog (by rw [Nat.zero_mul, Nat.zero_add]; exact Nat.le_of_lt h)
    rw [hexact, Nat.zero_mul, Nat.zero_add]
  case isFalse hlarge =>
    have hsum := Nat.div_add_mod magnitude span
    have hmod := Nat.mod_lt magnitude span_pos
    have hquotient : 1 ≤ magnitude / span := (Nat.one_le_div_iff span_pos).2 (by omega)
    generalize hfraction : magnitude % span = fraction at hsum hmod
    generalize hplace : magnitude / span = place at hsum hquotient
    obtain ⟨step, rfl⟩ : ∃ step, place = step + 1 := ⟨place - 1, by omega⟩
    have hvalue : step * span + (fraction + span) = magnitude := by
      rw [← hsum, Nat.mul_comm span, Nat.succ_mul]
      omega
    have hlog := log2_significand (Nat.le_add_left span fraction) (by omega) step
    have hstep : Nat.log2 ((fraction + span) * 2 ^ step) - 52 = step := by omega
    have hexact := nearest_exact hstep (by rw [hvalue]; exact Nat.le_of_lt h)
    simp only [Nat.add_sub_cancel]
    rw [hexact, hvalue]

/-- A double is told by its bits. -/
theorem toFloat_toBits (x : Float) : toFloat false x.toBits.toNat = x := by
  simp [toFloat]

end Binary64

/-! ### Decimals -/

namespace Decimal

open Binary64

/-- A decimal with places behind the point stands for a quotient. -/
theorem magnitude_neg (digits places : Nat) :
    magnitude ⟨digits, -(places : Int)⟩ = nearest digits (10 ^ places) := by
  cases places with
  | zero =>
      show nearest (digits * 1) 1 = _
      rw [Nat.mul_one, Nat.pow_zero]
  | succ places => rfl

/-- A zero at the end of a fraction adds nothing. -/
theorem magnitude_trim (d : Decimal) : d.trim.magnitude = d.magnitude := by
  fun_induction trim d with
  | case1 d h ih =>
      obtain ⟨digits, exponent⟩ := d
      obtain ⟨-, hzero, hexponent⟩ := h
      obtain ⟨places, rfl⟩ : ∃ places : Nat, exponent = -((places + 1 : Nat) : Int) :=
        ⟨(-exponent).toNat - 1, by dsimp only at hexponent; omega⟩
      have hshift : -((places + 1 : Nat) : Int) + 1 = -(places : Int) := by omega
      rw [ih]
      dsimp only at hzero ⊢
      rw [hshift, magnitude_neg, magnitude_neg, ← nearest_mul (k := 10) (by decide),
        Nat.pow_succ', Nat.mul_div_cancel' (Nat.dvd_of_mod_eq_zero hzero)]
  | case2 => rfl

/-- Fives make a decimal of a quotient by twos. -/
theorem magnitude_expansion (digits places : Nat) :
    magnitude ⟨digits * Nat.pow 5 places, -(places : Int)⟩ = nearest digits (Nat.pow 2 places) := by
  have hten : 10 ^ places = Nat.pow 5 places * Nat.pow 2 places := Nat.mul_pow 5 2 places
  have hfive : 0 < Nat.pow 5 places := Nat.pow_pos (by decide)
  rw [magnitude_neg, hten, Nat.mul_comm digits, nearest_mul hfive]

/-- The expansion in full has as many places as the finest grid has halvings. -/
theorem exact_eq (target : Nat) : ∃ places, grain = Nat.pow 2 places ∧
    exact target = trim ⟨(decode target).1 * Nat.pow 2 (decode target).2 * Nat.pow 5 places,
      -(places : Int)⟩ :=
  ⟨1074, by delta grain; rfl, rfl⟩

/-- The expansion in full names the double that it was made for. -/
theorem magnitude_exact {target : Nat} (h : target < infinity) :
    (exact target).magnitude = target := by
  obtain ⟨places, hgrain, hexact⟩ := exact_eq target
  rw [hexact, magnitude_trim, magnitude_expansion, ← hgrain]
  exact nearest_decode h

/-- A neighbour that was taken was read back first. -/
theorem magnitude_neighbour? {target num den : Nat} {exponent : Int} {d : Decimal}
    (h : neighbour? target num den exponent = some d) : d.magnitude = target := by
  unfold neighbour? at h
  dsimp only at h
  split at h
  case isTrue habove =>
    cases h
    exact habove.1
  case isFalse =>
    split at h
    case isTrue hbelow =>
      cases h
      exact hbelow
    case isFalse => cases h

/-- What the shortest decimal is chosen from: neighbours, and the expansion in full. -/
theorem shortest_eq (target : Nat) :
    let num := (decode target).1 * Nat.pow 2 (decode target).2
    shortest target = ((List.range 17).findSome? fun (more : Nat) =>
      neighbour? target num grain (leadingPlace num grain - (more : Int))).getD (exact target) :=
  rfl

/-- The shortest decimal of a double names it. -/
theorem magnitude_shortest {target : Nat} (h : target < infinity) :
    (shortest target).magnitude = target := by
  -- Said of any option, so that nothing looks into the search itself.
  have hchoice : ∀ found : Option Decimal, (∀ d ∈ found, d.magnitude = target) →
      (found.getD (exact target)).magnitude = target := by
    intro found hfound
    cases found with
    | none =>
        rw [Option.getD_none]
        exact magnitude_exact h
    | some d =>
        rw [Option.getD_some]
        exact hfound d rfl
  rw [shortest_eq]
  refine hchoice _ fun d hd => ?_
  obtain ⟨more, -, hmore⟩ := List.exists_of_findSome?_eq_some hd
  exact magnitude_neighbour? hmore

/-! ### Digits -/

/-- Digits around a point stand for a quotient. -/
theorem magnitude_ofDigits (whole fraction : List Char) :
    (ofDigits whole fraction).magnitude =
      nearest (Nat.ofDigitChars 10 (whole ++ fraction) 0) (10 ^ fraction.length) :=
  magnitude_neg _ _

/-- The text is a number in digits, and reads as this magnitude. -/
structure Reads (text whole fraction : List Char) (magnitude : Nat) : Prop where
  text : text = (Piece.number whole fraction).spelling
  nonempty : whole ≠ []
  digits : ∀ c ∈ whole ++ fraction, c.isDigit = true
  magnitude : (ofDigits whole fraction).magnitude = magnitude

/-- Zeros before or behind the digits of a number are digits too. -/
theorem isDigit_padded (digits before behind : Nat) :
    ∀ c ∈ List.replicate before '0' ++ Nat.toDigits 10 digits ++ List.replicate behind '0',
      c.isDigit = true := by
  simp only [List.mem_append]
  rintro c ((hc | hc) | hc)
  · rw [List.eq_of_mem_replicate hc]
    decide
  · exact Nat.isDigit_of_mem_toDigits (by decide) (by decide) hc
  · rw [List.eq_of_mem_replicate hc]
    decide

/-- Zeros before the digits of a number do not count, and those behind them shift it. -/
theorem ofDigitChars_padded (digits before behind : Nat) :
    Nat.ofDigitChars 10
      (List.replicate before '0' ++ Nat.toDigits 10 digits ++ List.replicate behind '0') 0 =
      10 ^ behind * digits := by
  rw [Nat.ofDigitChars_append, Nat.ofDigitChars_append, Nat.ofDigitChars_replicate_zero,
    Nat.ofDigitChars_replicate_zero, Nat.mul_zero, Nat.ofDigitChars_ten_toDigits]

/-- The text of a decimal reads as what the decimal stands for. -/
theorem text_reads (d : Decimal) : ∃ whole fraction, Reads d.text whole fraction d.magnitude := by
  obtain ⟨digits, exponent⟩ := d
  cases exponent with
  | ofNat e =>
      -- A zero is not followed by others.
      obtain ⟨zeros, htext, hvalue⟩ : ∃ zeros, text ⟨digits, .ofNat e⟩ =
          Nat.toDigits 10 digits ++ List.replicate zeros '0' ∧
          10 ^ zeros * digits = digits * 10 ^ e := by
        by_cases hzero : digits = 0
        · exact ⟨0, by simp [text, hzero], by simp [hzero]⟩
        · exact ⟨e, by simp [text, hzero], Nat.mul_comm _ _⟩
      have hdigits := isDigit_padded digits 0 zeros
      have hpadded := ofDigitChars_padded digits 0 zeros
      rw [List.replicate_zero, List.nil_append, ← htext] at hdigits hpadded
      refine ⟨text ⟨digits, .ofNat e⟩, [], rfl, ?_, ?_, ?_⟩
      · rw [htext]
        simp [Nat.toDigits_ne_nil]
      · rwa [List.append_nil]
      · rw [magnitude_ofDigits, List.append_nil, hpadded, hvalue]
        rfl
  | negSucc e =>
      let before := e + 1 + 1 - (Nat.toDigits 10 digits).length
      let padded := List.replicate before '0' ++ Nat.toDigits 10 digits
      have hdigits := isDigit_padded digits before 0
      have hpadded := ofDigitChars_padded digits before 0
      rw [List.replicate_zero, List.append_nil] at hdigits hpadded
      have hlength : e + 1 < padded.length := by
        simp only [padded, before, List.length_append, List.length_replicate]
        omega
      have hfraction : (padded.drop (padded.length - (e + 1))).length = e + 1 := by
        rw [List.length_drop]
        omega
      refine ⟨padded.take (padded.length - (e + 1)), padded.drop (padded.length - (e + 1)),
        ?_, ?_, ?_, ?_⟩
      · show _ ++ '.' :: _ = _
        -- There is a place behind the point, so the point is written.
        generalize List.drop _ padded = fraction at hfraction
        cases fraction with
        | nil => cases hfraction
        | cons => rfl
      · simp only [ne_eq, List.take_eq_nil_iff, not_or]
        exact ⟨by omega, List.ne_nil_of_length_pos (by omega)⟩
      · rwa [List.take_append_drop]
      · rw [magnitude_ofDigits, List.take_append_drop, hpadded, hfraction, Nat.pow_zero,
          Nat.one_mul]
        rfl

end Decimal

/-- The digits of a finite magnitude are a number in digits, and read as this magnitude. -/
theorem Number.finiteText_reads {magnitude : Nat} (h : magnitude < Binary64.infinity) :
    ∃ whole fraction, Decimal.Reads (finiteText magnitude) whole fraction magnitude := by
  unfold finiteText
  split
  case isTrue hzero =>
    exact ⟨['0'], [], rfl, by simp, by simp [Char.isDigit], by rw [hzero]; decide +kernel⟩
  case isFalse =>
    obtain ⟨whole, fraction, hreads⟩ := Decimal.text_reads (Decimal.shortest magnitude)
    rw [Decimal.magnitude_shortest h] at hreads
    exact ⟨whole, fraction, hreads⟩

/-- The text of a finite double whose sign bit is clear is a number in digits, and reads as this
double. -/
theorem Number.text_reads {x : Float} (h : x.toBits.toNat < Binary64.infinity) :
    ∃ whole fraction, Decimal.Reads (Number.text x).toList whole fraction x.toBits.toNat := by
  have hsign : x.toBits.toNat < 2048 * Binary64.span :=
    Nat.lt_trans h (by decide)
  have hfinite : Binary64.ofFloat x = (false, x.toBits.toNat) := by
    simp [Binary64.ofFloat, Nat.mod_eq_of_lt hsign, hsign]
  have htext : (Number.text x).toList = finiteText x.toBits.toNat := by
    unfold Number.text
    rw [hfinite]
    simp [Nat.not_lt.2 (Nat.le_of_lt h), Nat.ne_of_lt h]
  rw [htext]
  exact finiteText_reads h

end Scriptlet
