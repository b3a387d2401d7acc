import Diagram.Number.Literal
import Mathlib.Algebra.Order.Field.Rat
import Mathlib.Data.Nat.Digits.Defs
import Mathlib.Data.Rat.Lemmas
import Mathlib.Tactic.FieldSimp
import Mathlib.Tactic.IntervalCases
import Mathlib.Tactic.Ring

/-!
The grammar of number literals, with the value of each form. It says what a literal is without
saying how one is read: a sign is a factor, digits are the coefficients of the powers of their radix
and an exponent is a power of ten. Main statement: reading a number accepts exactly the literals of
the grammar and gives their exact value (`numberValue_exact`).
-/
namespace Diagram

/-! ## The grammar -/

/-- The character is the digit `d` of a radix up to sixteen. -/
def IsDigitOf (radix : Nat) (c : Char) (d : Nat) : Prop :=
  d < radix ∧ ("0123456789abcdef".toList[d]? = some c ∨ "0123456789ABCDEF".toList[d]? = some c)

/-- The characters are digits, most significant first, and `n` is their value. -/
def DigitsOf (radix : Nat) (cs : List Char) (n : Nat) : Prop :=
  ∃ ds, List.Forall₂ (IsDigitOf radix) cs ds ∧ n = Nat.ofDigits radix ds.reverse

/-- An optional sign and its factor. -/
inductive SignOf : List Char → Int → Prop
  | none : SignOf [] 1
  | plus : SignOf ['+'] 1
  | minus : SignOf ['-'] (-1)

/-- An optional exponent and the power of ten it stands for. -/
inductive ExponentOf : List Char → Int → Prop
  | none : ExponentOf [] 0
  | some {letter : Char} {sign digits : List Char} {factor : Int} {n : Nat} :
      letter = 'e' ∨ letter = 'E' → SignOf sign factor → digits ≠ [] → DigitsOf 10 digits n →
      n ≤ 10000 → ExponentOf (letter :: (sign ++ digits)) (factor * n)

/-- Digits with at most one point among, before or after them. -/
inductive MantissaOf : List Char → Rat → Prop
  | whole {digits : List Char} {n : Nat} :
      digits ≠ [] → DigitsOf 10 digits n → MantissaOf digits n
  | pointed {whole fraction : List Char} {n m : Nat} :
      whole ++ fraction ≠ [] → DigitsOf 10 whole n → DigitsOf 10 fraction m →
      MantissaOf (whole ++ '.' :: fraction) (n + m / 10 ^ fraction.length)

/-- A decimal. -/
inductive DecimalOf : List Char → Rat → Prop
  | intro {sign mantissa exponent : List Char} {factor e : Int} {m : Rat} :
      SignOf sign factor → MantissaOf mantissa m → ExponentOf exponent e →
      DecimalOf (sign ++ mantissa ++ exponent) (factor * m * 10 ^ e)

/-- The letter after a leading zero that names a radix. -/
inductive RadixOf : Char → Nat → Prop
  | hexadecimal {letter : Char} : letter = 'x' ∨ letter = 'X' → RadixOf letter 16
  | octal {letter : Char} : letter = 'o' ∨ letter = 'O' → RadixOf letter 8
  | binary {letter : Char} : letter = 'b' ∨ letter = 'B' → RadixOf letter 2

/-- A number literal. -/
inductive LiteralOf : List Char → Rat → Prop
  | decimal {cs : List Char} {q : Rat} : DecimalOf cs q → LiteralOf cs q
  | quotient {numerator denominator : List Char} {p q : Rat} :
      DecimalOf numerator p → DecimalOf denominator q → q ≠ 0 →
      LiteralOf (numerator ++ '/' :: denominator) (p / q)
  | integer {sign digits : List Char} {letter : Char} {factor : Int} {radix n : Nat} :
      SignOf sign factor → RadixOf letter radix → digits ≠ [] → DigitsOf radix digits n →
      LiteralOf (sign ++ '0' :: letter :: digits) (factor * n)

/-! ## Digits -/

/-- The digits of a radix are those of the largest one that are small enough. -/
theorem digitValue?_of_radix {radix d : Nat} (hradix : radix ≤ 16) {c : Char} :
    digitValue? radix c = some d ↔ d < radix ∧ digitValue? 16 c = some d := by
  simp only [digitValue?, Option.ite_none_right_eq_some, Option.some.injEq]
  constructor
  · rintro ⟨hlt, rfl⟩
    exact ⟨hlt, Nat.lt_of_lt_of_le hlt hradix, rfl⟩
  · rintro ⟨hlt, -, rfl⟩
    exact ⟨hlt, rfl⟩

theorem isDigitOf_of_digitValue? {c : Char} {d : Nat} (h : digitValue? 16 c = some d) :
    IsDigitOf 16 c d := by
  have hnumeral : ∀ k, 48 ≤ k → k ≤ 57 → IsDigitOf 16 (Char.ofNat k) (k - 48) := by
    intro k hlow hhigh
    interval_cases k <;> exact ⟨by decide, .inl rfl⟩
  have hlower : ∀ k, 97 ≤ k → k ≤ 102 → IsDigitOf 16 (Char.ofNat k) (k - 97 + 10) := by
    intro k hlow hhigh
    interval_cases k <;> exact ⟨by decide, .inl rfl⟩
  have hupper : ∀ k, 65 ≤ k → k ≤ 70 → IsDigitOf 16 (Char.ofNat k) (k - 65 + 10) := by
    intro k hlow hhigh
    interval_cases k <;> exact ⟨by decide, .inr rfl⟩
  rw [← Char.ofNat_toNat c]
  simp only [digitValue?, Char.isDigit_iff_toNat, Bool.and_eq_true, decide_eq_true_eq,
    Char.le_def, UInt32.le_iff_toNat_le, Char.toNat_val, Option.ite_none_right_eq_some,
    Option.some.injEq] at h
  obtain ⟨hlt, rfl⟩ := h
  split_ifs at hlt ⊢ with hdigit ha hA
  · exact hnumeral _ hdigit.1 hdigit.2
  · exact hlower _ ha.1 ha.2
  · exact hupper _ hA.1 hA.2
  · omega

theorem digitValue?_of_isDigitOf {c : Char} {d : Nat} (h : IsDigitOf 16 c d) :
    digitValue? 16 c = some d := by
  obtain ⟨hd, h⟩ := h
  interval_cases d <;> simp at h <;> rcases h with rfl | rfl <;> rfl

theorem digitValue?_eq_some_iff {radix d : Nat} (hradix : radix ≤ 16) {c : Char} :
    digitValue? radix c = some d ↔ IsDigitOf radix c d := by
  rw [digitValue?_of_radix hradix]
  constructor
  · rintro ⟨hd, h⟩
    exact ⟨hd, (isDigitOf_of_digitValue? h).2⟩
  · rintro ⟨hd, h⟩
    exact ⟨hd, digitValue?_of_isDigitOf ⟨Nat.lt_of_lt_of_le hd hradix, h⟩⟩

theorem digitsOf_nil {radix : Nat} : DigitsOf radix [] 0 :=
  ⟨[], .nil, rfl⟩

theorem digitsOf_cons {radix : Nat} {c : Char} {cs : List Char} {n : Nat} :
    DigitsOf radix (c :: cs) n ↔
      ∃ d m, IsDigitOf radix c d ∧ DigitsOf radix cs m ∧ n = d * radix ^ cs.length + m := by
  constructor
  · rintro ⟨_, hall, rfl⟩
    obtain ⟨d, ds, hd, hds, rfl⟩ := List.forall₂_cons_left_iff.mp hall
    refine ⟨d, _, hd, ⟨ds, hds, rfl⟩, ?_⟩
    rw [List.reverse_cons, Nat.ofDigits_append, List.length_reverse, ← hds.length_eq]
    simp [Nat.mul_comm, Nat.add_comm]
  · rintro ⟨d, _, hd, ⟨ds, hds, rfl⟩, rfl⟩
    refine ⟨d :: ds, .cons hd hds, ?_⟩
    rw [List.reverse_cons, Nat.ofDigits_append, List.length_reverse, ← hds.length_eq]
    simp [Nat.mul_comm, Nat.add_comm]

theorem digitsOf_append {radix : Nat} {xs ys : List Char} {n : Nat} :
    DigitsOf radix (xs ++ ys) n ↔
      ∃ a b, DigitsOf radix xs a ∧ DigitsOf radix ys b ∧ n = a * radix ^ ys.length + b := by
  -- on the digits in front, as the first digit has the greatest weight
  induction xs generalizing n with
  | nil =>
    constructor
    · intro h
      exact ⟨0, n, digitsOf_nil, h, by simp⟩
    · rintro ⟨_, b, ⟨_, hds, rfl⟩, hb, rfl⟩
      obtain rfl := List.forall₂_nil_left_iff.mp hds
      simpa using hb
  | cons c xs ih =>
    rw [List.cons_append, digitsOf_cons]
    constructor
    · rintro ⟨d, m, hd, hm, rfl⟩
      obtain ⟨a, b, ha, hb, rfl⟩ := ih.mp hm
      refine ⟨_, b, digitsOf_cons.mpr ⟨d, a, hd, ha, rfl⟩, hb, ?_⟩
      rw [List.length_append]
      ring
    · rintro ⟨_, b, hall, hb, rfl⟩
      obtain ⟨d, a, hd, ha, rfl⟩ := digitsOf_cons.mp hall
      refine ⟨d, _, hd, ih.mpr ⟨a, b, ha, hb, rfl⟩, ?_⟩
      rw [List.length_append]
      ring

theorem digitsValue?_eq_some_iff {radix : Nat} (hradix : radix ≤ 16) {cs : List Char} {n : Nat} :
    digitsValue? radix cs = some n ↔ DigitsOf radix cs n := by
  -- the fold starts from what the digits before amount to
  have hfold : ∀ (cs : List Char) (m n : Nat),
      cs.foldlM (fun n c => (digitValue? radix c).map (radix * n + ·)) m = some n ↔
        ∃ k, DigitsOf radix cs k ∧ n = m * radix ^ cs.length + k := by
    intro cs
    induction cs with
    | nil =>
      intro m n
      constructor
      · intro h
        exact ⟨0, digitsOf_nil, by simpa using h.symm⟩
      · rintro ⟨_, ⟨_, hds, rfl⟩, rfl⟩
        obtain rfl := List.forall₂_nil_left_iff.mp hds
        simp
    | cons c cs ih =>
      intro m n
      simp only [List.foldlM_cons, Option.bind_eq_bind, Option.bind_eq_some_iff,
        Option.map_eq_some_iff, digitValue?_eq_some_iff hradix]
      constructor
      · rintro ⟨_, ⟨d, hd, rfl⟩, h⟩
        obtain ⟨k, hk, rfl⟩ := (ih _ _).mp h
        refine ⟨_, digitsOf_cons.mpr ⟨d, k, hd, hk, rfl⟩, ?_⟩
        rw [List.length_cons]
        ring
      · rintro ⟨_, hall, rfl⟩
        obtain ⟨d, k, hd, hk, rfl⟩ := digitsOf_cons.mp hall
        refine ⟨_, ⟨d, hd, rfl⟩, (ih _ _).mpr ⟨k, hk, ?_⟩⟩
        rw [List.length_cons]
        ring
  rw [digitsValue?, hfold]
  simp

theorem naturalValue?_eq_some_iff {radix : Nat} (hradix : radix ≤ 16) {cs : List Char} {n : Nat} :
    naturalValue? radix cs = some n ↔ cs ≠ [] ∧ DigitsOf radix cs n := by
  cases cs with
  | nil => simp [naturalValue?]
  | cons c cs =>
    simp [naturalValue?, digitsValue?_eq_some_iff hradix]

theorem DigitsOf.isDigit {cs : List Char} {n : Nat} (h : DigitsOf 10 cs n) :
    ∀ c ∈ cs, c.isDigit = true := by
  obtain ⟨ds, hds, -⟩ := h
  induction hds with
  | nil => simp
  | @cons c d cs ds hd _ ih =>
    refine List.forall_mem_cons.mpr ⟨?_, ih⟩
    obtain ⟨hd, hc⟩ := hd
    interval_cases d <;> simp at hc <;> subst hc <;> rfl

/-! ## Cutting at separators -/

theorem cutFirst_of_not_mem {sep : Char} {cs : List Char} (h : sep ∉ cs) :
    cutFirst sep cs = none := by
  induction cs with
  | nil => rfl
  | cons c cs ih =>
    rw [cutFirst, if_neg (List.ne_of_not_mem_cons h).symm, ih (List.not_mem_of_not_mem_cons h)]
    rfl

theorem cutFirst_append {sep : Char} {before : List Char} (h : sep ∉ before) (rest : List Char) :
    cutFirst sep (before ++ sep :: rest) = some (before, rest) := by
  induction before with
  | nil => simp [cutFirst]
  | cons c before ih =>
    rw [List.cons_append, cutFirst, if_neg (List.ne_of_not_mem_cons h).symm,
      ih (List.not_mem_of_not_mem_cons h)]
    rfl

theorem append_of_cutFirst {sep : Char} {cs before rest : List Char}
    (h : cutFirst sep cs = some (before, rest)) : cs = before ++ sep :: rest := by
  induction cs generalizing before with
  | nil => cases h
  | cons c cs ih =>
    rw [cutFirst] at h
    split at h
    · next hc =>
      obtain ⟨rfl, rfl⟩ := Prod.mk.inj (Option.some.inj h)
      rw [hc, List.nil_append]
    · obtain ⟨⟨before', rest'⟩, hcut, heq⟩ := Option.map_eq_some_iff.mp h
      obtain ⟨rfl, rfl⟩ := Prod.mk.inj heq
      rw [ih hcut, List.cons_append]

theorem cutExponent_of_forall {cs : List Char} (h : ∀ c ∈ cs, c ≠ 'e' ∧ c ≠ 'E') :
    cutExponent cs = (cs, none) := by
  induction cs with
  | nil => rfl
  | cons c cs ih =>
    obtain ⟨hc, hcs⟩ := List.forall_mem_cons.mp h
    simp [cutExponent, hc, ih hcs]

theorem cutExponent_append {mantissa : List Char} (h : ∀ c ∈ mantissa, c ≠ 'e' ∧ c ≠ 'E')
    {letter : Char} (hletter : letter = 'e' ∨ letter = 'E') (exponent : List Char) :
    cutExponent (mantissa ++ letter :: exponent) = (mantissa, some exponent) := by
  induction mantissa with
  | nil => simp [cutExponent, hletter]
  | cons c mantissa ih =>
    obtain ⟨hc, hcs⟩ := List.forall_mem_cons.mp h
    simp [cutExponent, hc, ih hcs]

theorem eq_of_cutExponent_none {cs mantissa : List Char}
    (h : cutExponent cs = (mantissa, none)) : cs = mantissa := by
  induction cs generalizing mantissa with
  | nil => exact (Prod.mk.inj h).1
  | cons c cs ih =>
    rw [cutExponent] at h
    split at h
    · exact nomatch (Prod.mk.inj h).2
    · obtain ⟨hmantissa, hexponent⟩ := Prod.mk.inj h
      rw [← hmantissa]
      exact congrArg (c :: ·) (ih (Prod.ext rfl hexponent))

theorem append_of_cutExponent {cs mantissa exponent : List Char}
    (h : cutExponent cs = (mantissa, some exponent)) :
    ∃ letter, (letter = 'e' ∨ letter = 'E') ∧ cs = mantissa ++ letter :: exponent := by
  induction cs generalizing mantissa with
  | nil => exact nomatch (Prod.mk.inj h).2
  | cons c cs ih =>
    rw [cutExponent] at h
    split at h
    · next hc =>
      obtain ⟨rfl, hexponent⟩ := Prod.mk.inj h
      obtain rfl := Option.some.inj hexponent
      exact ⟨c, by simpa using hc, rfl⟩
    · obtain ⟨hmantissa, hexponent⟩ := Prod.mk.inj h
      obtain ⟨letter, hletter, hcs⟩ := ih (Prod.ext rfl hexponent)
      exact ⟨letter, hletter, by rw [← hmantissa, List.cons_append, ← hcs]⟩

/-! ## Signs -/

/-- The factor of a sign that was read. -/
def signFactor (negative : Bool) : Int :=
  if negative then -1 else 1

theorem cutSign_append {sign rest : List Char} {factor : Int} (h : SignOf sign factor)
    (hrest : ∀ c ∈ rest.head?, c ≠ '+' ∧ c ≠ '-') :
    ∃ negative, signFactor negative = factor ∧ cutSign (sign ++ rest) = (negative, rest) := by
  cases h with
  | plus => exact ⟨false, rfl, rfl⟩
  | minus => exact ⟨true, rfl, rfl⟩
  | none =>
    refine ⟨false, rfl, ?_⟩
    rw [List.nil_append]
    unfold cutSign
    split
    · exact absurd rfl (hrest '-' rfl).2
    · exact absurd rfl (hrest '+' rfl).1
    · rfl

theorem append_of_cutSign {cs rest : List Char} {negative : Bool}
    (h : cutSign cs = (negative, rest)) :
    ∃ sign, SignOf sign (signFactor negative) ∧ cs = sign ++ rest := by
  unfold cutSign at h
  split at h <;> obtain ⟨rfl, rfl⟩ := Prod.mk.inj h
  · exact ⟨['-'], .minus, rfl⟩
  · exact ⟨['+'], .plus, rfl⟩
  · exact ⟨[], .none, rfl⟩

@[simp] theorem ite_neg_int (negative : Bool) (n : Nat) :
    (if negative = true then -(n : Int) else n) = signFactor negative * n := by
  cases negative <;> simp [signFactor]

@[simp] theorem ite_neg_rat (negative : Bool) (q : Rat) :
    (if negative = true then -q else q) = signFactor negative * q := by
  cases negative <;> simp [signFactor]

/-! ## Decimals -/

theorem scaled_eq (m : Nat) (e : Int) : scaled m e = m * (10 : Rat) ^ e := by
  unfold scaled
  split
  · next h =>
    obtain ⟨k, rfl⟩ := Int.eq_ofNat_of_zero_le h
    simp
  · next h =>
    obtain ⟨k, hk⟩ := Int.eq_ofNat_of_zero_le (Int.le_of_lt (Int.neg_pos_of_neg (Int.not_le.mp h)))
    obtain rfl : e = -(k : Int) := by omega
    rw [Rat.mkRat_eq_div]
    simp [div_eq_mul_inv]

/-- What starts with a digit or a point has no sign of its own. -/
theorem not_sign_of_head {cs : List Char} (h : ∀ c ∈ cs, c.isDigit = true ∨ c = '.') :
    ∀ c ∈ cs.head?, c ≠ '+' ∧ c ≠ '-' := by
  intro c hc
  rcases h c (List.mem_of_mem_head? hc) with hdigit | rfl
  · constructor <;> rintro rfl <;> exact absurd hdigit (by decide)
  · decide

theorem exponentValue?_eq_some_iff {letter : Char} (hletter : letter = 'e' ∨ letter = 'E')
    {cs : List Char} {e : Int} : exponentValue? cs = some e ↔ ExponentOf (letter :: cs) e := by
  unfold exponentValue?
  constructor
  · intro h
    cases hsign : cutSign cs with | mk negative digits
    obtain ⟨sign, hfactor, rfl⟩ := append_of_cutSign hsign
    simp only [hsign] at h
    split at h
    · cases h
    · next n hn =>
      obtain ⟨hne, hdigits⟩ := (naturalValue?_eq_some_iff (by decide)).mp hn
      rw [Option.ite_none_right_eq_some, Option.some.injEq, ite_neg_int] at h
      obtain ⟨hmax, rfl⟩ := h
      exact .some hletter hfactor hne hdigits hmax
  · intro h
    cases h with
    | @some _ sign digits factor n _ hsign hne hdigits hmax =>
      obtain ⟨negative, rfl, hcut⟩ :=
        cutSign_append hsign (not_sign_of_head fun c hc => .inl (hdigits.isDigit c hc))
      have hn : naturalValue? 10 digits = some n :=
        (naturalValue?_eq_some_iff (by decide)).mpr ⟨hne, hdigits⟩
      simp only [hcut, hn, ite_neg_int]
      exact if_pos hmax

theorem mantissaOf_of_naturalValue? {mantissa whole fraction : List Char} {n : Nat}
    (hcut : (cutFirst '.' mantissa).getD (mantissa, []) = (whole, fraction))
    (hn : naturalValue? 10 (whole ++ fraction) = some n) :
    MantissaOf mantissa (n / 10 ^ fraction.length) := by
  obtain ⟨hne, hdigits⟩ := (naturalValue?_eq_some_iff (by decide)).mp hn
  cases hpoint : cutFirst '.' mantissa with
  | none =>
    obtain ⟨rfl, rfl⟩ : mantissa = whole ∧ [] = fraction := by simpa [hpoint] using hcut
    rw [List.append_nil] at hne hdigits
    simpa using MantissaOf.whole hne hdigits
  | some parts =>
    obtain rfl : parts = (whole, fraction) := by simpa [hpoint] using hcut
    obtain ⟨a, b, ha, hb, rfl⟩ := digitsOf_append.mp hdigits
    have hvalue : ((a * 10 ^ fraction.length + b : Nat) : Rat) / 10 ^ fraction.length =
        a + b / 10 ^ fraction.length := by
      push_cast
      field_simp
    rw [append_of_cutFirst hpoint, hvalue]
    exact .pointed hne ha hb

theorem naturalValue?_of_mantissaOf {mantissa : List Char} {m : Rat} (h : MantissaOf mantissa m) :
    ∃ whole fraction n, (cutFirst '.' mantissa).getD (mantissa, []) = (whole, fraction) ∧
      naturalValue? 10 (whole ++ fraction) = some n ∧ m = n / 10 ^ fraction.length := by
  have hpointless : ∀ {cs : List Char} {n : Nat}, DigitsOf 10 cs n → '.' ∉ cs :=
    fun hdigits hmem => absurd (hdigits.isDigit _ hmem) (by decide)
  cases h with
  | @whole _ n hne hdigits =>
    refine ⟨mantissa, [], n, by rw [cutFirst_of_not_mem (hpointless hdigits)]; rfl, ?_, by simp⟩
    rw [List.append_nil, naturalValue?_eq_some_iff (by decide)]
    exact ⟨hne, hdigits⟩
  | @pointed whole fraction a b hne ha hb =>
    refine ⟨whole, fraction, _, by rw [cutFirst_append (hpointless ha)]; rfl,
      (naturalValue?_eq_some_iff (by decide)).mpr
        ⟨hne, digitsOf_append.mpr ⟨a, b, ha, hb, rfl⟩⟩, ?_⟩
    push_cast
    field_simp

theorem MantissaOf.ne_nil {cs : List Char} {m : Rat} (h : MantissaOf cs m) : cs ≠ [] := by
  cases h with
  | whole hne _ => exact hne
  | pointed => simp

theorem MantissaOf.digit_or_point {cs : List Char} {m : Rat} (h : MantissaOf cs m) :
    ∀ c ∈ cs, c.isDigit = true ∨ c = '.' := by
  intro c hc
  cases h with
  | whole _ hdigits => exact .inl (hdigits.isDigit c hc)
  | pointed _ hwhole hfraction =>
    rcases List.mem_append.mp hc with hc | hc
    · exact .inl (hwhole.isDigit c hc)
    · rcases List.mem_cons.mp hc with rfl | hc
      · exact .inr rfl
      · exact .inl (hfraction.isDigit c hc)

/-- The value of a decimal that is cut into its parts. -/
theorem decimalValue?_of_cut {cs rest mantissa whole fraction : List Char}
    {exponent : Option (List Char)} {negative : Bool} (hsign : cutSign cs = (negative, rest))
    (hexponent : cutExponent rest = (mantissa, exponent))
    (hpoint : (cutFirst '.' mantissa).getD (mantissa, []) = (whole, fraction)) {q : Rat} :
    decimalValue? cs = some q ↔ ∃ n e, naturalValue? 10 (whole ++ fraction) = some n ∧
      exponent.elim (some 0) exponentValue? = some e ∧
      q = signFactor negative * (n / 10 ^ fraction.length) * 10 ^ e := by
  have hscaled : ∀ (n : Nat) (e : Int), (signFactor negative : Rat) *
      scaled n (e - fraction.length) =
        signFactor negative * (n / 10 ^ fraction.length) * 10 ^ e := by
    intro n e
    rw [scaled_eq, zpow_sub₀ (by norm_num), zpow_natCast]
    ring
  simp only [decimalValue?, hsign, hexponent, hpoint, Option.bind_eq_bind, Option.bind_eq_some_iff,
    Option.pure_def, ite_neg_rat, hscaled]
  cases exponent <;> simp [Option.bind_eq_some_iff, @eq_comm Rat q]

theorem decimalValue?_eq_some_iff {cs : List Char} {q : Rat} :
    decimalValue? cs = some q ↔ DecimalOf cs q := by
  constructor
  · intro h
    cases hsign : cutSign cs with | mk negative rest
    cases hexponent : cutExponent rest with | mk mantissa exponent
    cases hpoint : (cutFirst '.' mantissa).getD (mantissa, []) with | mk whole fraction
    obtain ⟨n, e, hn, he, rfl⟩ := (decimalValue?_of_cut hsign hexponent hpoint).mp h
    obtain ⟨sign, hfactor, rfl⟩ := append_of_cutSign hsign
    have hmantissa := mantissaOf_of_naturalValue? hpoint hn
    cases exponent with
    | none =>
      obtain rfl := Option.some.inj he
      rw [eq_of_cutExponent_none hexponent, ← List.append_nil (sign ++ mantissa)]
      exact .intro hfactor hmantissa .none
    | some exponent =>
      obtain ⟨letter, hletter, rfl⟩ := append_of_cutExponent hexponent
      rw [← List.append_assoc]
      exact .intro hfactor hmantissa ((exponentValue?_eq_some_iff hletter).mp he)
  · rintro ⟨hsign, hmantissa, hexponent⟩
    next sign mantissa exponent factor e m =>
    obtain ⟨whole, fraction, n, hpoint, hn, rfl⟩ := naturalValue?_of_mantissaOf hmantissa
    -- the three cuts are the right ones: a mantissa holds digits and a point, but no letter or sign
    have hletterless : ∀ c ∈ mantissa, c ≠ 'e' ∧ c ≠ 'E' := by
      intro c hc
      rcases hmantissa.digit_or_point c hc with hdigit | rfl
      · constructor <;> rintro rfl <;> exact absurd hdigit (by decide)
      · decide
    have hhead : ∀ c ∈ (mantissa ++ exponent).head?, c ≠ '+' ∧ c ≠ '-' := by
      rw [List.head?_append_of_ne_nil _ hmantissa.ne_nil]
      exact not_sign_of_head hmantissa.digit_or_point
    obtain ⟨negative, rfl, hcut⟩ := cutSign_append hsign hhead
    rw [List.append_assoc]
    cases hexponent with
    | none =>
      rw [List.append_nil] at hcut ⊢
      exact (decimalValue?_of_cut hcut (cutExponent_of_forall hletterless) hpoint).mpr
        ⟨n, 0, hn, rfl, rfl⟩
    | @some letter sign' digits factor' n' hletter hsign' hne hdigits hmax =>
      exact (decimalValue?_of_cut hcut (cutExponent_append hletterless hletter _) hpoint).mpr
        ⟨n, _, hn, (exponentValue?_eq_some_iff hletter).mpr (.some hletter hsign' hne hdigits hmax),
          rfl⟩

/-- The characters of a decimal. -/
theorem DecimalOf.chars {cs : List Char} {q : Rat} (h : DecimalOf cs q) :
    ∀ c ∈ cs, c.isDigit = true ∨ c ∈ ['.', '+', '-', 'e', 'E'] := by
  have hsigns : ∀ {sign : List Char} {factor : Int}, SignOf sign factor →
      ∀ c ∈ sign, c ∈ ['+', '-'] := by
    intro sign factor hsign
    cases hsign <;> simp
  intro c hc
  obtain ⟨hsign, hmantissa, hexponent⟩ := h
  rcases List.mem_append.mp hc with hc | hc
  · rcases List.mem_append.mp hc with hc | hc
    · have := hsigns hsign c hc
      grind
    · have := hmantissa.digit_or_point c hc
      grind
  · cases hexponent with
    | none => cases hc
    | some hletter hsign' _ hdigits _ =>
      rcases List.mem_cons.mp hc with rfl | hc
      · grind
      · rcases List.mem_append.mp hc with hc | hc
        · have := hsigns hsign' c hc
          grind
        · exact .inl (hdigits.isDigit c hc)

/-! ## Literals -/

/-- The two characters that are one letter in lower case. -/
theorem eq_or_eq_of_toLower {c x : Char} (h : c.toLower = x) :
    c = x ∨ c = Char.ofNat (x.toNat - 32) := by
  subst h
  by_cases hupper : c.val ≥ 'A'.val ∧ c.val ≤ 'Z'.val
  · right
    have hlower : c.toLower.val = c.val + ('a'.val - 'A'.val) :=
      congrArg Char.val (dif_pos hupper)
    have hcode : c.toLower.toNat = c.toNat + 32 := by
      rw [← Char.toNat_val, hlower, UInt32.toNat_add]
      simp [UInt32.le_iff_toNat_le] at hupper ⊢
      omega
    rw [hcode, Nat.add_sub_cancel, Char.ofNat_toNat]
  · left
    have hlower : c.toLower = c := dif_neg hupper
    exact hlower.symm

theorem radix?_eq_some_iff {letter : Char} {radix : Nat} :
    radix? letter = some radix ↔ RadixOf letter radix := by
  constructor
  · intro h
    unfold radix? at h
    split at h
    · next hx => cases h; exact .hexadecimal (eq_or_eq_of_toLower hx)
    · next ho => cases h; exact .octal (eq_or_eq_of_toLower ho)
    · next hb => cases h; exact .binary (eq_or_eq_of_toLower hb)
    · cases h
  · rintro (h | h | h) <;> rcases h with rfl | rfl <;> rfl

theorem IsDigitOf.ne_slash {radix d : Nat} {c : Char} (hradix : radix ≤ 16)
    (h : IsDigitOf radix c d) : c ≠ '/' := by
  rintro rfl
  have hvalue := digitValue?_of_isDigitOf ⟨Nat.lt_of_lt_of_le h.1 hradix, h.2⟩
  exact absurd hvalue (by simp [digitValue?])

theorem DigitsOf.slash_not_mem {radix n : Nat} (hradix : radix ≤ 16) {cs : List Char}
    (h : DigitsOf radix cs n) : '/' ∉ cs := by
  obtain ⟨ds, hds, -⟩ := h
  induction hds with
  | nil => simp
  | cons hd _ ih => simpa using ⟨(hd.ne_slash hradix).symm, ih⟩

theorem RadixOf.le {letter : Char} {radix : Nat} (h : RadixOf letter radix) : radix ≤ 16 := by
  cases h <;> decide

theorem radixValue?_eq_some_iff {cs : List Char} {q : Rat} :
    radixValue? cs = some q ↔ ∃ sign letter digits factor radix n, SignOf sign factor ∧
      RadixOf letter radix ∧ digits ≠ [] ∧ DigitsOf radix digits n ∧
      cs = sign ++ '0' :: letter :: digits ∧ q = factor * n := by
  constructor
  · intro h
    cases hsign : cutSign cs with | mk negative rest
    obtain ⟨sign, hfactor, rfl⟩ := append_of_cutSign hsign
    simp only [radixValue?, hsign] at h
    split at h
    · next letter digits =>
      simp only [Option.bind_eq_bind, Option.bind_eq_some_iff, Option.pure_def, ite_neg_rat,
        Option.some.injEq] at h
      obtain ⟨radix, hradix, n, hn, rfl⟩ := h
      have hradix := radix?_eq_some_iff.mp hradix
      obtain ⟨hne, hdigits⟩ := (naturalValue?_eq_some_iff hradix.le).mp hn
      exact ⟨sign, letter, digits, _, radix, n, hfactor, hradix, hne, hdigits, rfl, rfl⟩
    · cases h
  · rintro ⟨sign, letter, digits, factor, radix, n, hsign, hradix, hne, hdigits, rfl, rfl⟩
    have hhead : ∀ c ∈ ('0' :: letter :: digits).head?, c ≠ '+' ∧ c ≠ '-' := by simp
    obtain ⟨negative, rfl, hcut⟩ := cutSign_append hsign hhead
    have hn := (naturalValue?_eq_some_iff hradix.le).mpr ⟨hne, hdigits⟩
    simp [radixValue?, hcut, radix?_eq_some_iff.mpr hradix, hn]

theorem numberValue?_eq_some_iff {cs : List Char} {q : Rat} :
    numberValue? cs = some q ↔ LiteralOf cs q := by
  have hslash : ∀ {cs : List Char} {q : Rat}, DecimalOf cs q → '/' ∉ cs :=
    fun hdecimal hmem => absurd (hdecimal.chars _ hmem) (by decide)
  unfold numberValue?
  constructor
  · intro h
    cases hcut : cutFirst '/' cs with
    | none =>
      simp only [hcut] at h
      cases hdecimal : decimalValue? cs with
      | some q' =>
        obtain rfl : q' = q := by simpa [hdecimal] using h
        exact .decimal (decimalValue?_eq_some_iff.mp hdecimal)
      | none =>
        obtain ⟨sign, letter, digits, factor, radix, n, hsign, hradix, hne, hdigits, rfl, rfl⟩ :=
          radixValue?_eq_some_iff.mp (by simpa [hdecimal] using h)
        exact .integer hsign hradix hne hdigits
    | some parts =>
      obtain ⟨numerator, denominator⟩ := parts
      simp only [hcut, Option.bind_eq_bind, Option.bind_eq_some_iff, Option.pure_def,
        Option.ite_none_left_eq_some, Option.some.injEq] at h
      obtain ⟨p, hp, d, hd, hzero, rfl⟩ := h
      rw [append_of_cutFirst hcut]
      exact .quotient (decimalValue?_eq_some_iff.mp hp) (decimalValue?_eq_some_iff.mp hd) hzero
  · intro h
    cases h with
    | decimal hdecimal =>
      simp [cutFirst_of_not_mem (hslash hdecimal), decimalValue?_eq_some_iff.mpr hdecimal]
    | @quotient numerator denominator p d hp hd hzero =>
      simp [cutFirst_append (hslash hp), decimalValue?_eq_some_iff.mpr hp,
        decimalValue?_eq_some_iff.mpr hd, hzero]
    | @integer sign digits letter factor radix n hsign hradix hne hdigits =>
      have hother : letter ≠ '/' ∧
          ¬(letter.isDigit = true ∨ letter ∈ ['.', '+', '-', 'e', 'E']) := by
        cases hradix <;> rename_i h <;> rcases h with rfl | rfl <;> decide
      have hwhole : '/' ∉ sign ++ '0' :: letter :: digits := by
        have hdigits := hdigits.slash_not_mem hradix.le
        cases hsign <;> simpa using ⟨hother.1.symm, hdigits⟩
      -- the letter of the radix is in no decimal
      have hnot : decimalValue? (sign ++ '0' :: letter :: digits) = none := by
        refine Option.eq_none_iff_forall_ne_some.mpr fun q hq => hother.2 ?_
        exact (decimalValue?_eq_some_iff.mp hq).chars letter (by simp)
      simpa [cutFirst_of_not_mem hwhole, hnot] using radixValue?_eq_some_iff.mpr
        ⟨sign, letter, digits, factor, radix, n, hsign, hradix, hne, hdigits, rfl, rfl⟩

/-- Reading a number accepts exactly the literals and gives their exact value, whose numerator and
denominator are those in lowest terms. Nothing else is taken for a number. -/
theorem numberValue_exact (cs : List Char) :
    (∀ q, numberValue? cs = some q ↔ LiteralOf cs q) ∧
    (∀ (n : Int) (d : Nat), (numberValue? cs).map (fun q => (q.num, q.den)) = some (n, d) ↔
      LiteralOf cs (n / d) ∧ 0 < d ∧ n.natAbs.Coprime d) ∧
    (numberValue? cs = none ↔ ∀ q, ¬LiteralOf cs q) := by
  refine ⟨fun q => numberValue?_eq_some_iff, fun n d => ?_, ?_⟩
  · constructor
    · intro h
      obtain ⟨q, hq, hparts⟩ := Option.map_eq_some_iff.mp h
      obtain ⟨rfl, rfl⟩ := Prod.mk.inj hparts
      rw [Rat.num_div_den]
      exact ⟨numberValue?_eq_some_iff.mp hq, q.den_pos, q.reduced⟩
    · rintro ⟨h, hd, hcoprime⟩
      have hposition : (0 : Int) < d := by exact_mod_cast hd
      have hnum : ((n : Rat) / d).num = n := Rat.num_div_eq_of_coprime hposition hcoprime
      have hden : (((n : Rat) / d).den : Int) = d := Rat.den_div_eq_of_coprime hposition hcoprime
      rw [numberValue?_eq_some_iff.mpr h, Option.map_some, hnum, Int.ofNat_inj.mp hden]
  · simp only [Option.eq_none_iff_forall_ne_some, ne_eq, numberValue?_eq_some_iff]

end Diagram
