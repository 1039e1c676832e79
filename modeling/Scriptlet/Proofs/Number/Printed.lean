import Scriptlet.Proofs.Lexical.Layout
import Scriptlet.Run.Native
import Scriptlet.Run.SplitMix

/-!
# `Scriptlet.Proofs.Number.Printed`: numbers survive printing

A number that is printed can be read in two ways: a script converts the text back to a number, or
the text stands in a source as a literal. Converting knows signs, words and exponents, and literals
know none of them.

* `Binary64.toFloat_ofFloat`: sign and magnitude tell a double, and all that is not a number is one
  double (`Binary64.eq_of_infinity_lt`);
* `Number.read?_text`: the text of any double names it;
* `Number.read?_strip`: an end of a point and a zero may be left out, and `Number.text` never writes
  one (`Number.not_suffix_text`);
* `numbers_survive_printing`: both ways back, for every double.
-/

set_option autoImplicit false

namespace Scriptlet

/-! ### Doubles and their bits -/

namespace Binary64

open Float.Model (Format)
open Float.Model.UnpackedFloat

/-- Infinity is the first magnitude whose exponent bits are all set. -/
theorem infinity_eq : infinity = 2047 * 2 ^ 52 := rfl

/-- A double is put together again from its sign and its magnitude. -/
theorem toFloat_ofFloat (x : Float) : toFloat (ofFloat x).1 (ofFloat x).2 = x := by
  have hlt : x.toBits.toNat < 2 ^ 64 := UInt64.toNat_lt x.toBits
  have hbits : (if (ofFloat x).1 = true then 2048 * span + (ofFloat x).2 else (ofFloat x).2)
      = x.toBits.toNat := by
    by_cases hnegative : 2048 * span ≤ x.toBits.toNat
    all_goals
      simp only [ofFloat, hnegative, decide_true, decide_false, if_true, Bool.false_eq_true,
        if_false]
      rw [span_eq] at hnegative ⊢
      omega
  rw [toFloat, hbits, UInt64.ofNat_toNat, Float.ofBits_toBits]

/-- The exponent bits are all set in infinity, and beyond. -/
theorem unpackExponent_iff (x : Float) :
    @unpackExponent Format.binary64 x.toBits.toBitVec = -1#_ ↔
      infinity ≤ (ofFloat x).2 := by
  have hexponent : (@unpackExponent Format.binary64 x.toBits.toBitVec).toNat
      = x.toBits.toNat / 2 ^ 52 % 2 ^ 11 := by
    simp [unpackExponent, Nat.shiftRight_eq_div_pow]
  have hfull : (-1#(Format.binary64.exponentBits) : BitVec _).toNat = 2047 := by decide
  rw [← BitVec.toNat_inj, hexponent, hfull, infinity_eq]
  simp only [ofFloat, span_eq]
  omega

/-- The mantissa bits of a double are the last ones. -/
theorem unpackMantissa_iff (x : Float) :
    @unpackMantissa Format.binary64 x.toBits.toBitVec = 0#_ ↔
      (ofFloat x).2 % span = 0 := by
  have hmantissa : (@unpackMantissa Format.binary64 x.toBits.toBitVec).toNat
      = x.toBits.toNat % 2 ^ 52 := by
    simp [unpackMantissa]
  rw [← BitVec.toNat_inj, hmantissa]
  simp only [ofFloat, span_eq, BitVec.toNat_ofNat, Nat.zero_mod]
  omega

/-- What lies beyond infinity is one and the same double. -/
theorem eq_of_infinity_lt {x : Float} (h : infinity < (ofFloat x).2) :
    toFloat false (infinity + span / 2) = x := by
  have hexponent := (unpackExponent_iff x).2 (Nat.le_of_lt h)
  have hmantissa : @unpackMantissa Format.binary64 x.toBits.toBitVec ≠ 0#_ := by
    rw [ne_eq, unpackMantissa_iff]
    rw [infinity_eq] at h
    have : (ofFloat x).2 < 2048 * 2 ^ 52 := Nat.mod_lt _ (by decide)
    rw [span_eq]
    omega
  have hpacked := x.toModel.valid.eq_packedNaN hexponent hmantissa
  have hbits : x.toBits = UInt64.ofNat (infinity + span / 2) := by
    rw [← UInt64.toBitVec_inj]
    exact hpacked.trans (by decide +kernel)
  simp only [toFloat, Bool.false_eq_true, if_false]
  rw [← hbits, Float.ofBits_toBits]

/-- Finite doubles are those below infinity. -/
theorem isFinite_iff (x : Float) : x.isFinite = true ↔ (ofFloat x).2 < infinity := by
  rw [← Nat.not_le, ← unpackExponent_iff]
  show (unpack Format.binary64 x.toBits.toBitVec).isFinite = true ↔ _
  unfold unpack
  dsimp only
  split
  case isTrue hfull =>
    refine iff_of_false ?_ (not_not_intro hfull)
    split <;> exact Bool.false_ne_true
  case isFalse hfull =>
    refine iff_of_true ?_ hfull
    split
    · split <;> rfl
    · rfl

end Binary64

/-! ### Reading a text back -/

namespace Text

/-- Digits are not blank. -/
theorem isBlank_of_isDigit {c : Char} (h : c.isDigit = true) : isBlank c = false := by
  have hbounds : 48 ≤ c.toNat ∧ c.toNat ≤ 57 := by
    simpa [Char.isDigit, UInt32.le_iff_toNat_le] using h
  simp [isBlank, blankRanges]
  omega

/-- A text without blanks has none at its ends. -/
theorem trim_of_plain {text : List Char} (h : ∀ c ∈ text, isBlank c = false) :
    trim text = text := by
  have hkept : ∀ part : List Char, (∀ c ∈ part, isBlank c = false) →
      part.dropWhile isBlank = part := by
    intro part hpart
    cases part with
    | nil => rfl
    | cons c part => simp [hpart c]
  rw [trim, hkept text h, dropEndWhile,
    hkept _ fun c hc => h c (List.mem_reverse.1 hc), List.reverse_reverse]

end Text

namespace Number

/-- A text without a sign of its own is read with the sign in front of it. -/
theorem read?_signed {body : List Char} (hminus : body.head? ≠ some '-')
    (hplus : body.head? ≠ some '+') (negative : Bool) :
    read? (if negative then '-' :: body else body)
      = (readMagnitude? body).map (Binary64.toFloat negative) := by
  cases negative with
  | true => rfl
  | false =>
      simp only [Bool.false_eq_true, if_false]
      unfold read?
      split
      case h_1 => exact absurd rfl hminus
      case h_2 => exact absurd rfl hplus
      case h_3 => rfl

/-- The text reads as this magnitude, has no sign, and nothing of it is blank. -/
structure Body (body : List Char) (magnitude : Nat) : Prop where
  reads : readMagnitude? body = some magnitude
  minus : body.head? ≠ some '-'
  plus : body.head? ≠ some '+'
  plain : ∀ c ∈ body, Text.isBlank c = false

/-- What is written for a magnitude behind the sign. -/
def bodyText (magnitude : Nat) : List Char :=
  if magnitude = Binary64.infinity then ['i', 'n', 'f'] else finiteText magnitude

/-- The text of a double: its name if it is no number, and else its sign and its magnitude. -/
theorem text_eq (x : Float) : (text x).toList =
    if Binary64.infinity < (Binary64.ofFloat x).2 then ['N', 'a', 'N']
    else if (Binary64.ofFloat x).1 then '-' :: bodyText (Binary64.ofFloat x).2
    else bodyText (Binary64.ofFloat x).2 := by
  unfold text
  dsimp only
  split
  · rfl
  · rw [String.toList_ofList]
    rfl

/-- A number in digits reads as its magnitude. -/
theorem body_of_reads {body whole fraction : List Char} {magnitude : Nat}
    (h : Decimal.Reads body whole fraction magnitude) : Body body magnitude := by
  have hdecimal := readDecimal?_digits h.nonempty h.digits
  rw [← h.text] at hdecimal
  have hchars : ∀ c ∈ body, c.isDigit = true ∨ c = '.' := by
    intro c hc
    rw [h.text] at hc
    have hall : c ∈ whole ++ fraction ∨ c = '.' := by
      cases fraction with
      | nil => exact .inl (List.mem_append_left _ hc)
      | cons d more => simp only [Piece.spelling, List.mem_append, List.mem_cons] at hc ⊢; tauto
    exact hall.imp_left (h.digits c)
  -- The first character is a digit, so the text is neither signed nor a word.
  obtain ⟨c, more, rfl⟩ : ∃ c more, body = c :: more := by
    obtain ⟨c, digits, hwhole⟩ := List.exists_cons_of_ne_nil h.nonempty
    rw [h.text, hwhole]
    cases fraction <;> exact ⟨_, _, rfl⟩
  have hc : c.isDigit = true := by
    obtain ⟨d, digits, hwhole⟩ := List.exists_cons_of_ne_nil h.nonempty
    have htext := h.text
    have hd := h.digits d (by simp [hwhole])
    rw [hwhole] at htext
    cases fraction <;> exact (List.cons.inj htext).1 ▸ hd
  refine ⟨?_, ?_, ?_, fun d hd => ?_⟩
  · rw [readMagnitude?_digit hc, hdecimal, Option.map_some, h.magnitude]
  · simpa using ne_of_isDigit hc (by decide)
  · simpa using ne_of_isDigit hc (by decide)
  · rcases hchars d hd with hd | rfl
    · exact Text.isBlank_of_isDigit hd
    · decide

/-- What is written behind the sign is a number in digits, or the word for infinity. -/
theorem bodyText_body {magnitude : Nat} (h : magnitude ≤ Binary64.infinity) :
    Body (bodyText magnitude) magnitude := by
  unfold bodyText
  split
  case isTrue hinf =>
    rw [hinf]
    exact ⟨by decide +kernel, by decide, by decide, by simp [Text.isBlank, Text.blankRanges]⟩
  case isFalse hinf =>
    obtain ⟨whole, fraction, hreads⟩ := finiteText_reads (Nat.lt_of_le_of_ne h hinf)
    exact body_of_reads hreads

/-- The text of a double names this double. -/
theorem read?_text (x : Float) : read? (text x).toList = some x := by
  rw [text_eq]
  split
  case isTrue hnan =>
    have hread : read? ['N', 'a', 'N']
        = some (Binary64.toFloat false (Binary64.infinity + Binary64.span / 2)) := rfl
    rw [hread, Binary64.eq_of_infinity_lt hnan]
  case isFalse hle =>
    have hbody := bodyText_body (Nat.le_of_not_lt hle)
    rw [read?_signed hbody.minus hbody.plus, hbody.reads, Option.map_some,
      Binary64.toFloat_ofFloat]

/-- Nothing of the text is blank. -/
theorem text_plain (x : Float) : ∀ c ∈ (text x).toList, Text.isBlank c = false := by
  rw [text_eq]
  split
  case isTrue => simp [Text.isBlank, Text.blankRanges]
  case isFalse hle =>
    have hbody := bodyText_body (Nat.le_of_not_lt hle)
    split
    · rintro c (_ | ⟨_, hc⟩)
      · decide
      · exact hbody.plain c hc
    · exact hbody.plain

/-! ### A point and a zero at the end -/

/-- No exponent has a point in it. -/
theorem not_mem_of_readExponent? {text : List Char} {exponent : Int}
    (h : readExponent? text = some exponent) : '.' ∉ text := by
  have hdigits : ∀ (digits : List Char) (value : Int),
      (if digits.isEmpty || !digits.all Char.isDigit then none else some value) = some exponent →
      '.' ∉ digits := by
    -- A point is no digit, and the characters behind the letter of an exponent are digits and one
    -- sign.
    intro digits value hsome hmem
    split at hsome
    case isTrue => cases hsome
    case isFalse hall =>
      simp only [Bool.or_eq_true, Bool.not_eq_true', not_or, Bool.not_eq_false] at hall
      exact absurd (List.all_eq_true.1 hall.2 _ hmem) (by decide)
  unfold readExponent? at h
  split at h
  case h_1 => exact List.not_mem_nil
  case h_2 c rest =>
    split at h
    case isFalse => cases h
    case isTrue hc =>
      have hpoint : '.' ≠ c := by rcases hc with rfl | rfl <;> decide
      rw [List.mem_cons, not_or]
      refine ⟨hpoint, ?_⟩
      dsimp only at h
      split at h
      · simpa using hdigits _ _ h
      · simpa using hdigits _ _ h
      · exact hdigits _ _ h

/-- A decimal that ends in a point and a zero has only digits before them. -/
theorem digits_of_readDecimal? {body : List Char} {d : Decimal}
    (h : readDecimal? (body ++ ['.', '0']) = some d) : ∀ c ∈ body, c.isDigit = true := by
  by_contra hnot
  -- Behind the first character that is no digit there still is the point at the end.
  have hdrop : (body ++ ['.', '0']).dropWhile Char.isDigit
      = body.dropWhile Char.isDigit ++ ['.', '0'] := by
    rw [List.dropWhile_append, if_neg]
    rwa [List.isEmpty_iff, List.dropWhile_eq_nil_iff]
  have hrest : body.dropWhile Char.isDigit ≠ [] := by
    rwa [ne_eq, List.dropWhile_eq_nil_iff]
  obtain ⟨c, tail, htail⟩ := List.exists_cons_of_ne_nil hrest
  have hexponent : ∀ rest exponent, '.' ∈ rest → readExponent? rest ≠ some exponent :=
    fun rest exponent hmem hsome => not_mem_of_readExponent? hsome hmem
  have hkept : '.' ∈ (tail ++ ['.', '0']).dropWhile Char.isDigit := by
    have hmem : '.' ∈ (tail ++ ['.', '0']).takeWhile Char.isDigit ++
        (tail ++ ['.', '0']).dropWhile Char.isDigit := by
      rw [List.takeWhile_append_dropWhile]
      simp
    rcases List.mem_append.1 hmem with hmem | hmem
    · exact absurd (List.mem_takeWhile_imp hmem) (by decide)
    · exact hmem
  unfold readDecimal? at h
  rw [hdrop, htail] at h
  dsimp only at h
  split at h
  case h_1 rest hpoint =>
    obtain rfl : tail ++ ['.', '0'] = rest := (List.cons.inj hpoint).2
    split at h
    · cases h
    · obtain ⟨exponent, hsome, -⟩ := Option.map_eq_some_iff.1 h
      exact hexponent _ _ hkept hsome
  case h_2 =>
    split at h
    · cases h
    · obtain ⟨exponent, hsome, -⟩ := Option.map_eq_some_iff.1 h
      exact hexponent _ _ (by simp) hsome

/-- Behind the sign, a point and a zero at the end may be left out. -/
theorem readMagnitude?_strip {body : List Char} {magnitude : Nat} (hbody : body ≠ [])
    (h : readMagnitude? (body ++ ['.', '0']) = some magnitude) :
    readMagnitude? body = some magnitude := by
  have hwords : ∀ word : List Char, '.' ∉ word → (body ++ ['.', '0']).map Char.toLower ≠ word := by
    rintro word hword rfl
    exact hword (List.mem_map.2 ⟨'.', by simp, by decide⟩)
  have hinf := hwords "inf".toList (by decide)
  have hinfinity := hwords "infinity".toList (by decide)
  have hnan := hwords "nan".toList (by decide)
  have hread : (readDecimal? (body ++ ['.', '0'])).map Decimal.magnitude = some magnitude := by
    rw [← h, readMagnitude?]
    simp only [hinf, hinfinity, hnan, or_self, if_false]
  obtain ⟨d, hd, rfl⟩ := Option.map_eq_some_iff.1 hread
  have hdigits := digits_of_readDecimal? hd
  have hlong : readDecimal? (body ++ ['.', '0']) = some (.ofDigits body ['0']) :=
    @readDecimal?_digits body ['0'] hbody (by simpa [or_imp, forall_and] using hdigits)
  have hshort : readDecimal? body = some (.ofDigits body []) :=
    @readDecimal?_digits body [] hbody (by simpa using hdigits)
  -- Ten times the digits, divided by ten.
  have hvalue : (Decimal.ofDigits body ['0']).magnitude = (Decimal.ofDigits body []).magnitude := by
    rw [Decimal.magnitude_ofDigits, Decimal.magnitude_ofDigits, Nat.ofDigitChars_append,
      List.append_nil]
    exact Binary64.nearest_mul (k := 10) (by decide) _ 1
  obtain ⟨c, more, rfl⟩ := List.exists_cons_of_ne_nil hbody
  rw [readMagnitude?_digit (hdigits c List.mem_cons_self), hshort, Option.map_some, ← hvalue]
  rw [hlong, Option.some_inj] at hd
  rw [hd]

/-- A point and a zero at the end may be left out, if a digit remains. -/
theorem read?_strip {text : List Char} {x : Float} (hdigit : text.any Char.isDigit = true)
    (h : read? (text ++ ['.', '0']) = some x) : read? text = some x := by
  have hstrip : ∀ (body : List Char) (negative : Bool), body ≠ [] →
      (readMagnitude? (body ++ ['.', '0'])).map (Binary64.toFloat negative) = some x →
      (readMagnitude? body).map (Binary64.toFloat negative) = some x := by
    intro body negative hbody hread
    obtain ⟨magnitude, hmagnitude, hx⟩ := Option.map_eq_some_iff.1 hread
    rw [readMagnitude?_strip hbody hmagnitude, Option.map_some, hx]
  have hrest : ∀ (sign : Char) (rest : List Char), text = sign :: rest → sign.isDigit = false →
      rest ≠ [] := by
    rintro sign rest rfl hsign rfl
    simp [hsign] at hdigit
  unfold read? at h ⊢
  -- What is left out stands behind the sign, so both texts have the same sign.
  split
  case h_1 rest => exact hstrip rest true (hrest '-' rest rfl (by decide)) h
  case h_2 rest => exact hstrip rest false (hrest '+' rest rfl (by decide)) h
  case h_3 hminus hplus =>
    have hnonempty : text ≠ [] := by
      rintro rfl
      cases hdigit
    refine hstrip text false hnonempty ?_
    obtain ⟨c, more, rfl⟩ := List.exists_cons_of_ne_nil hnonempty
    split at h
    case h_1 heq => exact absurd (congrArg (· :: more) (List.cons.inj heq).1) (hminus more)
    case h_2 heq => exact absurd (congrArg (· :: more) (List.cons.inj heq).1) (hplus more)
    case h_3 => exact h

end Number

namespace Decimal

/-- The fraction does not end in a zero. -/
def Trimmed (d : Decimal) : Prop := d.digits % 10 = 0 → d.digits = 0 ∨ 0 ≤ d.exponent

/-- Leaving out zeros at the end leaves none that could be left out. -/
theorem trimmed_trim (d : Decimal) : d.trim.Trimmed := by
  fun_induction trim d with
  | case1 d h ih => exact ih
  | case2 d h =>
      intro hzero
      omega

/-- The shortest decimal does not write zeros that it need not write. -/
theorem trimmed_shortest (target : Nat) : (shortest target).Trimmed := by
  have hexact : (exact target).Trimmed := by
    obtain ⟨places, -, hexact⟩ := exact_eq target
    rw [hexact]
    exact trimmed_trim _
  have hneighbour : ∀ (num den : Nat) (exponent : Int) (d : Decimal),
      neighbour? target num den exponent = some d → d.Trimmed := by
    intro num den exponent d hd
    unfold neighbour? at hd
    dsimp only at hd
    split at hd
    · cases hd
      exact trimmed_trim _
    · split at hd
      · cases hd
        exact trimmed_trim _
      · cases hd
  have hchoice : ∀ found : Option Decimal, (∀ d ∈ found, d.Trimmed) →
      (found.getD (exact target)).Trimmed := by
    intro found hfound
    cases found with
    | none =>
        rw [Option.getD_none]
        exact hexact
    | some d =>
        rw [Option.getD_some]
        exact hfound d rfl
  -- The shortest decimal is a neighbour that was found, or the expansion in full.
  rw [shortest_eq]
  refine hchoice _ fun d hd => ?_
  obtain ⟨more, -, hmore⟩ := List.exists_of_findSome?_eq_some hd
  exact hneighbour _ _ _ d hmore

/-- No digits but zeros name zero. -/
theorem magnitude_of_digits_eq_zero {d : Decimal} (h : d.digits = 0) : d.magnitude = 0 := by
  have hnearest : ∀ den, Binary64.nearest 0 den = 0 := by
    intro den
    simp [Binary64.nearest, Binary64.roundHalfEven, Nat.log2_zero]
  obtain ⟨digits, exponent⟩ := d
  cases h
  cases exponent with
  | ofNat e => simpa [magnitude] using hnearest 1
  | negSucc e => exact hnearest _

/-- The text of a trimmed decimal does not end in a point and a zero. -/
theorem not_suffix_text {d : Decimal} (htrim : d.Trimmed) (hpos : d.digits ≠ 0) :
    ¬ ['.', '0'] <:+ d.text := by
  intro hsuffix
  obtain ⟨digits, exponent⟩ := d
  cases exponent with
  | ofNat e =>
      -- There is no point at all.
      have hpoint : '.' ∈ text ⟨digits, .ofNat e⟩ := hsuffix.subset List.mem_cons_self
      have hdigits := isDigit_padded digits 0 e
      have htext : text ⟨digits, .ofNat e⟩ = Nat.toDigits 10 digits ++ List.replicate e '0' :=
        if_neg hpos
      rw [htext] at hpoint
      exact absurd (hdigits '.' hpoint) (by decide)
  | negSucc e =>
      let before := e + 1 + 1 - (Nat.toDigits 10 digits).length
      let padded := List.replicate before '0' ++ Nat.toDigits 10 digits
      have hpadded := ofDigitChars_padded digits before 0
      rw [List.replicate_zero, List.append_nil, Nat.pow_zero, Nat.one_mul] at hpadded
      have hlength : e + 1 < padded.length := by
        simp only [padded, before, List.length_append, List.length_replicate]
        omega
      have hfraction : padded.drop (padded.length - (e + 1)) ≠ [] := by
        rw [ne_eq, List.drop_eq_nil_iff]
        omega
      have htext : text ⟨digits, .negSucc e⟩ = padded.take (padded.length - (e + 1)) ++
          '.' :: padded.drop (padded.length - (e + 1)) := rfl
      -- The zero at the end is the last digit.
      have hlast : padded.getLast? = some '0' := by
        obtain ⟨front, hfront⟩ := hsuffix
        have hends := congrArg List.getLast? (hfront.trans htext)
        obtain ⟨c, more, hdrop⟩ := List.exists_cons_of_ne_nil hfraction
        have hsplit := List.take_append_drop (padded.length - (e + 1)) padded
        rw [hdrop] at hends hsplit
        rw [← hsplit]
        simpa using hends.symm
      obtain ⟨front, hfront⟩ := List.getLast?_eq_some_iff.1 hlast
      have hvalue : digits = 10 * Nat.ofDigitChars 10 front 0 := by
        rw [← hpadded]
        show Nat.ofDigitChars 10 padded 0 = _
        rw [hfront, Nat.ofDigitChars_append]
        rfl
      rcases htrim (by dsimp only; omega) with hzero | hexponent
      · exact hpos hzero
      · exact absurd hexponent (by simp)

end Decimal

namespace Number

/-- No number is written with a point and a zero at the end. -/
theorem not_suffix_text (x : Float) : ¬ ['.', '0'] <:+ (text x).toList := by
  have hbody : ∀ magnitude ≤ Binary64.infinity, ¬ ['.', '0'] <:+ bodyText magnitude := by
    intro magnitude hle
    unfold bodyText
    -- Infinity and zero are written as words of their own. All other numbers are trimmed decimals.
    split
    case isTrue => decide
    case isFalse hinf =>
      unfold finiteText
      split
      case isTrue => decide
      case isFalse hzero =>
        have hmagnitude := Decimal.magnitude_shortest (Nat.lt_of_le_of_ne hle hinf)
        refine Decimal.not_suffix_text (Decimal.trimmed_shortest magnitude) fun hdigits => hzero ?_
        exact hmagnitude.symm.trans (Decimal.magnitude_of_digits_eq_zero hdigits)
  rw [text_eq]
  split
  case isTrue => decide
  case isFalse hle =>
    have hnot := hbody _ (Nat.le_of_not_lt hle)
    split
    · rw [List.suffix_cons_iff]
      rintro (heq | hsuffix)
      · cases heq
      · exact hnot hsuffix
    · exact hnot

end Number

/-! ### Both ways back -/

/-- A token that is all of the source is read, and then the end. -/
theorem scan_written {l : Lexicon} (hl : l.Sound) {t : Token} (h : t.Written) :
    ∃ u final : Token, (scan t.name l).errors = [] ∧ (scan t.name l).tokens = [u, final] ∧
      t.Same u ∧ final.kind = .eof := by
  have hwritten : ∀ item ∈ [(t, ([] : Layout))], item.1.Written := by simpa using h
  have hapart : Separated [(t, ([] : Layout))] := ⟨nofun, by simp⟩
  obtain ⟨us, l', hreads, hplaced⟩ := Scanner.reads_render hl [] hwritten hapart
  have hsource : String.ofList (render [] [(t, ([] : Layout))]) = t.name := by
    simp [render, Layout.text]
  have hscan := scan_of_reads hreads
  rw [hsource] at hscan
  cases hplaced with
  | @cons _ _ u _ _ _ hsame _ hrest =>
      cases hrest
      exact ⟨u, _, by rw [hscan], by rw [hscan]; rfl, hsame, rfl⟩

/-- Finite doubles whose sign bit is clear are written as literals. -/
theorem Number.spells_text {x : Float} (hfinite : x.isFinite = true)
    (hsign : x.toBits.toNat < 2 ^ 63) : Kind.number.Spells (Number.text x).toList := by
  have hmagnitude : (Binary64.ofFloat x).2 = x.toBits.toNat :=
    Nat.mod_eq_of_lt (by rw [Binary64.span_eq]; exact hsign)
  have hlt := (Binary64.isFinite_iff x).1 hfinite
  rw [hmagnitude] at hlt
  obtain ⟨whole, fraction, hreads⟩ := Number.text_reads hlt
  rw [hreads.text]
  exact .number hreads.nonempty hreads.digits

/-- **Numbers survive printing.** The text of any double converts back to this double, bit for bit:
also infinities, negative zero and what is not a number, which has one bit pattern only. If the
double is finite and its sign bit is clear, then its text is a number as it is written in a source,
digits with a point between two of them or none; and such a source is scanned without an error into
one number token, which is spelled by this text and carries this double, and the end. No text ends
in a point and a zero, and to leave out such an end would not change which number is read. -/
theorem numbers_survive_printing (x : Float) (m : Machine) {l : Lexicon} (hl : l.Sound) :
    let printed := Number.text x
    Native.toText.run [.number x] m = (.ok (.string printed), m) ∧
    Native.toDouble.run [.string printed] m = (.ok (.number x), m) ∧
    (x.isFinite = true → x.toBits.toNat < 2 ^ 63 →
      Kind.number.Spells printed.toList ∧
      ∃ t final : Token, (scan printed l).errors = [] ∧ (scan printed l).tokens = [t, final] ∧
        t.kind = .number ∧ t.name = printed ∧ t.literal = some (.number x) ∧
        final.kind = .eof) ∧
    ¬ ['.', '0'] <:+ printed.toList ∧
    ∀ (text : List Char) (y : Float), text.any Char.isDigit = true →
      Number.read? (text ++ ['.', '0']) = some y → Number.read? text = some y := by
  refine ⟨rfl, ?converted, fun hfinite hsign => ?scanned, Number.not_suffix_text x,
    fun text y hdigit => Number.read?_strip hdigit⟩
  case converted =>
    have hread : Number.read? (Text.trim (Number.text x).toList) = some x := by
      -- Nothing of the text is blank, so trimming leaves it as it is.
      rw [Text.trim_of_plain (Number.text_plain x), Number.read?_text]
    show (Native.convertToDouble (.string (Number.text x)), m) = _
    simp only [Native.convertToDouble, hread]
  case scanned =>
    have hspells := Number.spells_text hfinite hsign
    have hwritten := hspells.written
    rw [String.ofList_toList] at hwritten
    obtain ⟨t, final, herrors, htokens, hsame, hfinal⟩ := scan_written hl hwritten
    have hconstant : Kind.number.constant? (Number.text x).toList = some (.number x) := by
      rw [Kind.constant?, Number.read?_text]
      rfl
    exact ⟨hspells, t, final, herrors, htokens, hsame.kind.symm, hsame.name.symm,
      hsame.literal.symm.trans hconstant, hfinal⟩

/-- One tenth is written with a point, which is read back, and two without one. -/
theorem numbers_survive_printing_tenth :
    let tenth : Float := .ofBits 0x3FB999999999999A
    let two : Float := .ofBits 0x4000000000000000
    tenth.isFinite = true ∧ tenth.toBits.toNat < 2 ^ 63 ∧
      Number.read? (['2'] ++ ['.', '0']) = some two ∧
      (∃ t final : Token, (scan "0.1" (.new 0)).tokens = [t, final] ∧ t.kind = .number ∧
        t.literal = some (.number tenth)) ∧
      Number.read? ['2'] = some two := by
  intro tenth two
  have hfinite : tenth.isFinite = true := by decide +kernel
  have hsign : tenth.toBits.toNat < 2 ^ 63 := by decide +kernel
  have hread : Number.read? (['2'] ++ ['.', '0']) = some two := by decide +kernel
  have htext : Number.text tenth = "0.1" := by decide +kernel
  obtain ⟨-, -, hscanned, -, hstrip⟩ := numbers_survive_printing tenth
    (.blank (.ofBytes [] none) (.empty none) (.splitMix 0) (.steady (.ok 0))) (Lexicon.sound_new 0)
  obtain ⟨-, t, final, -, htokens, hkind, -, hliteral, -⟩ := hscanned hfinite hsign
  rw [htext] at htokens
  exact ⟨hfinite, hsign, hread, ⟨t, final, htokens, hkind, hliteral⟩,
    hstrip ['2'] two (by decide) hread⟩

end Scriptlet
