import Diagram.Proofs.Normal.Atoms
import Diagram.Tree.Quoting
import Mathlib.Tactic.ByContra

/-!
The characters of a number literal. None of them is blank or has a meaning in a value, so that every
number literal can be written without quotes, and so can the names of the other scalars.
-/
namespace Diagram

/-- A character that may stand in a number literal. -/
def isNumeric (c : Char) : Bool :=
  c.isAlphanum || c ∈ ['+', '-', '.', '/']

theorem isNumeric_not_special {c : Char} (h : isNumeric c = true) : c ∉ valueSpecials := by
  have hspecials : valueSpecials.all (fun x => !isNumeric x) = true := by decide
  intro hc
  have hother := List.all_eq_true.mp hspecials c hc
  rw [h] at hother
  cases hother

/-- Letters and digits by their codes. -/
theorem isAlphanum_iff_toNat {c : Char} : c.isAlphanum = true ↔
    (65 ≤ c.toNat ∧ c.toNat ≤ 90) ∨ (97 ≤ c.toNat ∧ c.toNat ≤ 122) ∨
      (48 ≤ c.toNat ∧ c.toNat ≤ 57) := by
  have hcases : c.isAlphanum = (decide (c.val ≥ 'A'.val ∧ c.val ≤ 'Z'.val) ||
      (c.val ≥ 'a'.val && c.val ≤ 'z'.val) || (c.val ≥ '0'.val && c.val ≤ '9'.val)) := rfl
  simp [hcases, UInt32.le_iff_toNat_le, ← Char.toNat_val, or_assoc]

theorem isNumeric_visible {c : Char} (h : isNumeric c = true) : isBlank c = false := by
  simp only [isNumeric, Bool.or_eq_true, decide_eq_true_eq] at h
  rcases h with h | h
  · have hcode := isAlphanum_iff_toNat.mp h
    simp [isBlank]
    omega
  · have hsigns : ∀ x ∈ ['+', '-', '.', '/'], isBlank x = false := by simp [isBlank]
    exact hsigns c h

/-- A character is a letter or a digit if it is one in lower case. -/
theorem isNumeric_of_toLower {c : Char} (h : c.toLower.isAlphanum = true) : isNumeric c = true := by
  have halphanum : c.isAlphanum = true := by
    by_cases hupper : c.val ≥ 'A'.val ∧ c.val ≤ 'Z'.val
    · refine isAlphanum_iff_toNat.mpr (.inl ?_)
      simpa [UInt32.le_iff_toNat_le, ← Char.toNat_val] using hupper
    · have hlower : c.toLower = c := dif_neg hupper
      rwa [hlower] at h
  simp [isNumeric, halphanum]

/-- All of the characters may stand in a number literal. -/
def Numeric (cs : List Char) : Prop :=
  ∀ c ∈ cs, isNumeric c = true

@[simp] theorem numeric_nil : Numeric [] := by
  simp [Numeric]

@[simp] theorem numeric_cons {c : Char} {cs : List Char} :
    Numeric (c :: cs) ↔ isNumeric c = true ∧ Numeric cs :=
  List.forall_mem_cons

@[simp] theorem numeric_append {xs ys : List Char} :
    Numeric (xs ++ ys) ↔ Numeric xs ∧ Numeric ys :=
  List.forall_mem_append

/-! ## Digits -/

theorem digitValue?_numeric {radix n : Nat} (hradix : radix ≤ 16) {c : Char}
    (h : digitValue? radix c = some n) : isNumeric c = true := by
  by_contra hother
  have hcode : ¬c.isAlphanum = true := fun halphanum => hother (by simp [isNumeric, halphanum])
  rw [isAlphanum_iff_toNat] at hcode
  have hdigit : ¬c.isDigit = true := by
    simp [Char.isDigit_iff_toNat]
    omega
  have hlower : ¬('a' ≤ c && c ≤ 'f') = true := by
    simp [Char.le_def, UInt32.le_iff_toNat_le, Char.toNat_val]
    omega
  have hupper : ¬('A' ≤ c && c ≤ 'F') = true := by
    simp [Char.le_def, UInt32.le_iff_toNat_le, Char.toNat_val]
    omega
  rw [digitValue?, if_neg hdigit, if_neg hlower, if_neg hupper, if_neg (by omega)] at h
  cases h

theorem digitsValue?_numeric {radix : Nat} (hradix : radix ≤ 16) {cs : List Char} {n : Nat}
    (h : digitsValue? radix cs = some n) : Numeric cs := by
  have hfold : ∀ (cs : List Char) (m : Nat),
      cs.foldlM (fun n c => (digitValue? radix c).map (radix * n + ·)) m = some n → Numeric cs := by
    intro cs
    induction cs with
    | nil => simp
    | cons c cs ih =>
      intro m h
      rw [List.foldlM_cons, Option.bind_eq_bind, Option.bind_eq_some_iff] at h
      obtain ⟨m', hc, hcs⟩ := h
      obtain ⟨d, hd, -⟩ := Option.map_eq_some_iff.mp hc
      exact numeric_cons.mpr ⟨digitValue?_numeric hradix hd, ih m' hcs⟩
  exact hfold cs 0 h

theorem naturalValue?_numeric {radix : Nat} (hradix : radix ≤ 16) {cs : List Char} {n : Nat}
    (h : naturalValue? radix cs = some n) : Numeric cs := by
  cases cs with
  | nil => exact numeric_nil
  | cons c cs => exact digitsValue?_numeric hradix h

/-! ## The parts of a literal -/

theorem numeric_of_cutSign {cs : List Char} (h : Numeric (cutSign cs).2) : Numeric cs := by
  unfold cutSign at h
  split at h
  · exact numeric_cons.mpr ⟨by decide, h⟩
  · exact numeric_cons.mpr ⟨by decide, h⟩
  · exact h

theorem numeric_of_cutFirst {sep : Char} (hsep : isNumeric sep = true) {cs before rest : List Char}
    (h : cutFirst sep cs = some (before, rest)) (hbefore : Numeric before) (hrest : Numeric rest) :
    Numeric cs := by
  induction cs generalizing before with
  | nil => exact numeric_nil
  | cons c cs ih =>
    rw [cutFirst] at h
    split at h
    · next hc =>
      obtain ⟨rfl, rfl⟩ := Prod.mk.inj (Option.some.inj h)
      exact numeric_cons.mpr ⟨hc ▸ hsep, hrest⟩
    · obtain ⟨⟨before', rest'⟩, hcut, heq⟩ := Option.map_eq_some_iff.mp h
      obtain ⟨rfl, rfl⟩ := Prod.mk.inj heq
      obtain ⟨hc, hbefore'⟩ := numeric_cons.mp hbefore
      exact numeric_cons.mpr ⟨hc, ih hcut hbefore'⟩

theorem numeric_of_cutExponent {cs : List Char} (h : Numeric (cutExponent cs).1)
    (hexponent : ∀ e ∈ (cutExponent cs).2, Numeric e) : Numeric cs := by
  induction cs with
  | nil => exact numeric_nil
  | cons c cs ih =>
    rw [cutExponent] at h hexponent
    split at h
    · next hc =>
      rw [if_pos hc] at hexponent
      refine numeric_cons.mpr ⟨?_, hexponent cs rfl⟩
      simp only [Bool.or_eq_true, decide_eq_true_eq] at hc
      rcases hc with rfl | rfl
      · decide
      · decide
    · next hc =>
      rw [if_neg hc] at hexponent
      obtain ⟨hc, hrest⟩ := numeric_cons.mp h
      exact numeric_cons.mpr ⟨hc, ih hrest hexponent⟩

theorem exponentValue?_numeric {cs : List Char} {e : Int} (h : exponentValue? cs = some e) :
    Numeric cs := by
  unfold exponentValue? at h
  apply numeric_of_cutSign
  cases hdigits : naturalValue? 10 (cutSign cs).2 with
  | none => simp [hdigits] at h
  | some n => exact naturalValue?_numeric (by decide) hdigits

theorem decimalValue?_numeric {cs : List Char} {q : Rat} (h : decimalValue? cs = some q) :
    Numeric cs := by
  unfold decimalValue? at h
  simp only [Option.bind_eq_bind, Option.bind_eq_some_iff] at h
  obtain ⟨digits, hdigits, hexponent⟩ := h
  have hmantissa : Numeric (cutExponent (cutSign cs).2).1 := by
    have hnatural := naturalValue?_numeric (by decide) hdigits
    cases hcut : cutFirst '.' (cutExponent (cutSign cs).2).1 with
    | none => simpa [hcut] using hnatural
    | some parts =>
      obtain ⟨whole, fraction⟩ := parts
      rw [hcut] at hnatural
      obtain ⟨hwhole, hfraction⟩ := numeric_append.mp hnatural
      exact numeric_of_cutFirst (by decide) hcut hwhole hfraction
  refine numeric_of_cutSign (numeric_of_cutExponent hmantissa fun e he => ?_)
  rw [Option.mem_def.mp he, Option.bind_eq_some_iff] at hexponent
  obtain ⟨exponent, hexponent, -⟩ := hexponent
  exact exponentValue?_numeric hexponent

theorem radix?_numeric {c : Char} {radix : Nat} (h : radix? c = some radix) :
    isNumeric c = true ∧ radix ≤ 16 := by
  unfold radix? at h
  split at h
  · next hx => exact ⟨isNumeric_of_toLower (by rw [hx]; decide), by cases h; decide⟩
  · next ho => exact ⟨isNumeric_of_toLower (by rw [ho]; decide), by cases h; decide⟩
  · next hb => exact ⟨isNumeric_of_toLower (by rw [hb]; decide), by cases h; decide⟩
  · cases h

theorem radixValue?_numeric {cs : List Char} {q : Rat} (h : radixValue? cs = some q) :
    Numeric cs := by
  apply numeric_of_cutSign
  cases hsign : cutSign cs with | mk negative rest
  simp only [radixValue?, hsign] at h
  split at h
  · next letter digits =>
    simp only [Option.bind_eq_bind, Option.bind_eq_some_iff] at h
    obtain ⟨radix, hradix, n, hn, -⟩ := h
    obtain ⟨hletter, hle⟩ := radix?_numeric hradix
    exact numeric_cons.mpr ⟨by decide, numeric_cons.mpr ⟨hletter, naturalValue?_numeric hle hn⟩⟩
  · cases h

/-- Every character of a number literal is a letter, a digit, a sign, a point or a slash. -/
theorem numberValue?_numeric {cs : List Char} {q : Rat} (h : numberValue? cs = some q) :
    Numeric cs := by
  unfold numberValue? at h
  cases hcut : cutFirst '/' cs with
  | none =>
    rw [hcut] at h
    cases hdecimal : decimalValue? cs with
    | some q' => exact decimalValue?_numeric hdecimal
    | none => exact radixValue?_numeric (by simpa [hdecimal] using h)
  | some parts =>
    obtain ⟨numerator, denominator⟩ := parts
    rw [hcut] at h
    simp only [Option.bind_eq_bind, Option.bind_eq_some_iff] at h
    obtain ⟨n, hnumerator, d, hdenominator, -⟩ := h
    exact numeric_of_cutFirst (by decide) hcut (decimalValue?_numeric hnumerator)
      (decimalValue?_numeric hdenominator)

/-! ## Keywords -/

theorem isKeyword_numeric {keyword s : String}
    (hkeyword : keyword.toList.all Char.isAlphanum = true)
    (h : Grammar.isKeyword keyword s = true) : Numeric s.toList := by
  intro c hc
  have hlower : s.toList.map Char.toLower = keyword.toList := by simpa [Grammar.isKeyword] using h
  exact isNumeric_of_toLower
    (List.all_eq_true.mp hkeyword _ (hlower ▸ List.mem_map_of_mem hc))

/-- What is taken for null, a boolean or a number holds no other characters than a number may. -/
theorem readsAsScalar_numeric {s : String} (h : readsAsScalar s = true) : Numeric s.toList := by
  simp only [readsAsScalar, Bool.or_eq_true] at h
  rcases h with ((h | h) | h) | h
  · exact isKeyword_numeric (by decide) h
  · exact isKeyword_numeric (by decide) h
  · exact isKeyword_numeric (by decide) h
  · obtain ⟨q, hq⟩ := Option.isSome_iff_exists.mp h
    exact numberValue?_numeric hq

end Diagram
