import Diagram.Range.Compact

/-!
Numerals as they stand in a compact text: an optional plus sign and ASCII digits, zeros in front
allowed. A number is written as the one numeral of its value that has neither; `Numeral.normal`
leads there.
-/
namespace Diagram

/-- The digits without the zeros in front of them; a number of only zeros keeps one. -/
def withoutZeros : List Char → List Char
  | '0' :: d :: digits => withoutZeros (d :: digits)
  | digits => digits

theorem decimalValue_eq (digits : List Char) : decimalValue digits = Nat.ofDigitChars 10 digits 0 :=
  Nat.ofDigitChars_eq_foldl.symm

@[simp] theorem decimalValue_toDigits (n : Nat) : decimalValue (Nat.toDigits 10 n) = n := by
  rw [decimalValue_eq, Nat.ofDigitChars_ten_toDigits]

@[simp] theorem decimalValue_withoutZeros (digits : List Char) :
    decimalValue (withoutZeros digits) = decimalValue digits := by
  fun_induction withoutZeros digits with
  | case1 d digits ih => rw [ih]; rfl
  | case2 digits _ => rfl

theorem withoutZeros_ne_nil {digits : List Char} (h : digits ≠ []) : withoutZeros digits ≠ [] := by
  fun_induction withoutZeros digits with
  | case1 d digits ih => exact ih (List.cons_ne_nil d digits)
  | case2 digits _ => exact h

theorem mem_of_mem_withoutZeros {digits : List Char} {c : Char} (h : c ∈ withoutZeros digits) :
    c ∈ digits := by
  fun_induction withoutZeros digits with
  | case1 d digits ih => exact List.mem_cons_of_mem _ (ih h)
  | case2 digits _ => exact h

/-- What is left starts with a zero only if that zero is all of it. -/
theorem withoutZeros_head (digits : List Char) :
    withoutZeros digits = ['0'] ∨ (withoutZeros digits).head? ≠ some '0' := by
  fun_induction withoutZeros digits with
  | case1 d digits ih => exact ih
  | case2 digits h =>
    match digits, h with
    | [], _ => exact .inr (by simp)
    | [c], _ =>
      by_cases hc : c = '0'
      · exact .inl (by rw [hc])
      · exact .inr (by simpa using hc)
    | c :: d :: digits, h =>
      refine .inr fun hc => h d digits ?_
      rw [List.head?_cons, Option.some.injEq] at hc
      rw [hc]

theorem toDigits_of_isDigit {c : Char} (h : c.isDigit) :
    c.toNat - '0'.toNat < 10 ∧ Nat.toDigits 10 (c.toNat - '0'.toNat) = [c] := by
  obtain ⟨hlo, hhi⟩ := Char.isDigit_iff_toNat.mp h
  have hbounds : '0'.toNat = 48 ∧ '9'.toNat = 57 := by decide
  have hlt : c.toNat - '0'.toNat < 10 := by omega
  have hnat : (c.toNat - '0'.toNat).digitChar.toNat = c.toNat := by
    rw [Nat.toNat_digitChar_of_lt_ten hlt]
    omega
  exact ⟨hlt, by rw [Nat.toDigits_of_lt_base hlt, Char.toNat_inj.mp hnat]⟩

/-- Digits read behind a number that is not zero are how the result goes on behind that number. -/
theorem toDigits_ofDigitChars {cs : List Char} (hcs : ∀ c ∈ cs, c.isDigit) {n : Nat} (hn : 0 < n) :
    Nat.toDigits 10 (Nat.ofDigitChars 10 cs n) = Nat.toDigits 10 n ++ cs := by
  induction cs generalizing n with
  | nil => simp
  | cons c cs ih =>
    obtain ⟨hlt, hc⟩ := toDigits_of_isDigit (hcs c List.mem_cons_self)
    have hcs' : ∀ d ∈ cs, d.isDigit := fun d hd => hcs d (List.mem_cons_of_mem c hd)
    rw [Nat.ofDigitChars_cons, ih hcs' (by omega),
      ← Nat.toDigits_append_toDigits (by decide) hn hlt, hc, List.append_assoc,
      List.singleton_append]

/-- The value of digits is written as these digits without the zeros in front. -/
theorem toDigits_decimalValue {digits : List Char} (hne : digits ≠ [])
    (hdigits : ∀ c ∈ digits, c.isDigit) :
    Nat.toDigits 10 (decimalValue digits) = withoutZeros digits := by
  rw [← decimalValue_withoutZeros]
  have hdigits' : ∀ c ∈ withoutZeros digits, c.isDigit :=
    fun c hc => hdigits c (mem_of_mem_withoutZeros hc)
  obtain hzero | hhead := withoutZeros_head digits
  · rw [hzero]
    decide
  · obtain ⟨c, cs, hcs⟩ := List.exists_cons_of_ne_nil (withoutZeros_ne_nil hne)
    rw [hcs] at hhead hdigits' ⊢
    obtain ⟨-, hc⟩ := toDigits_of_isDigit (hdigits' c List.mem_cons_self)
    have hpos : 0 < c.toNat - '0'.toNat := by
      refine Nat.pos_of_ne_zero fun h => ?_
      rw [h, Nat.toDigits_zero] at hc
      exact hhead (by rw [List.head?_cons, List.singleton_inj.mp hc])
    rw [decimalValue_eq, Nat.ofDigitChars_cons, Nat.mul_zero, Nat.zero_add,
      toDigits_ofDigitChars (fun d hd => hdigits' d (List.mem_cons_of_mem c hd)) hpos, hc,
      List.singleton_append]

/-- A numeral: one or more ASCII digits, maybe with a plus sign in front, of a value that a field
can hold. -/
structure Numeral where
  hasPlus : Bool
  digits : List Char
  ne_nil : digits ≠ []
  isDigit : ∀ c ∈ digits, c.isDigit
  le_maxWord : decimalValue digits ≤ maxWord

namespace Numeral

/-- How the numeral is spelled. -/
def text (n : Numeral) : List Char :=
  if n.hasPlus then '+' :: n.digits else n.digits

def value (n : Numeral) : Nat :=
  decimalValue n.digits

/-- The numeral of the same value without a plus sign and without zeros in front. -/
def normal (n : Numeral) : Numeral where
  hasPlus := false
  digits := withoutZeros n.digits
  ne_nil := withoutZeros_ne_nil n.ne_nil
  isDigit c hc := n.isDigit c (mem_of_mem_withoutZeros hc)
  le_maxWord := by rw [decimalValue_withoutZeros]; exact n.le_maxWord

/-- The numeral that a number is written as. -/
def ofNat (n : Nat) (h : n ≤ maxWord) : Numeral where
  hasPlus := false
  digits := Nat.toDigits 10 n
  ne_nil := Nat.toDigits_ne_nil
  isDigit _ hc := Nat.isDigit_of_mem_toDigits (by decide) (by decide) hc
  le_maxWord := by rw [decimalValue_toDigits]; exact h

@[simp] theorem value_ofNat (n : Nat) (h : n ≤ maxWord) : (ofNat n h).value = n :=
  decimalValue_toDigits n

theorem text_ofNat (n : Nat) (h : n ≤ maxWord) : (ofNat n h).text = (toString n).toList := by
  rw [Nat.toString_eq_ofList_toDigits, String.toList_ofList]
  rfl

/-- Writing the value of a numeral normalises it. -/
theorem text_normal (n : Numeral) : n.normal.text = (toString n.value).toList := by
  rw [Nat.toString_eq_ofList_toDigits, String.toList_ofList, value,
    toDigits_decimalValue n.ne_nil n.isDigit]
  rfl

theorem plus_not_mem (n : Numeral) : '+' ∉ n.digits :=
  fun h => absurd (n.isDigit _ h) (by decide)

theorem not_mem_text (n : Numeral) {c : Char} (hc : c.isDigit = false) (hplus : c ≠ '+') :
    c ∉ n.text := by
  have hdigits : c ∉ n.digits := fun h => by simp [n.isDigit c h] at hc
  rw [text]
  split
  · simp [hplus, hdigits]
  · exact hdigits

theorem text_injective {n m : Numeral} (h : n.text = m.text) : n = m := by
  obtain ⟨p, ds, hne, hds, hle⟩ := n
  obtain ⟨q, es, hne', hes, hle'⟩ := m
  have hp := plus_not_mem ⟨p, ds, hne, hds, hle⟩
  have hq := plus_not_mem ⟨q, es, hne', hes, hle'⟩
  cases p <;> cases q <;> simp only [text, Bool.false_eq_true, if_true, if_false] at h
  · subst h; rfl
  · exact absurd (h ▸ List.mem_cons_self) hp
  · exact absurd (h ▸ List.mem_cons_self) hq
  · obtain ⟨-, rfl⟩ := List.cons.inj h; rfl

end Numeral

/-- A field is read exactly where a numeral stands, as the value of that numeral. -/
theorem numeral?_eq_some {cs : List Char} {n : Nat} :
    numeral? cs = some n ↔ ∃ m : Numeral, m.text = cs ∧ m.value = n := by
  constructor
  · intro h
    by_cases hplus : ∃ ds, cs = '+' :: ds
    · obtain ⟨ds, rfl⟩ := hplus
      obtain ⟨⟨hne, hdigits⟩, hle, hn⟩ :
          (ds ≠ [] ∧ ∀ c ∈ ds, c.isDigit) ∧ decimalValue ds ≤ maxWord ∧ decimalValue ds = n := by
        simpa [numeral?] using h
      exact ⟨⟨true, ds, hne, hdigits, hle⟩, rfl, hn⟩
    · have hplus : ∀ ds, cs = '+' :: ds → False := fun ds hds => hplus ⟨ds, hds⟩
      obtain ⟨⟨hne, hdigits⟩, hle, hn⟩ :
          (cs ≠ [] ∧ ∀ c ∈ cs, c.isDigit) ∧ decimalValue cs ≤ maxWord ∧ decimalValue cs = n := by
        simpa [numeral?, hplus] using h
      exact ⟨⟨false, cs, hne, hdigits, hle⟩, rfl, hn⟩
  · rintro ⟨⟨hasPlus, digits, hne, hdigits, hle⟩, rfl, rfl⟩
    have hplus : ∀ ds, digits = '+' :: ds → False :=
      fun ds h => absurd (hdigits '+' (by simp [h])) (by decide)
    cases hasPlus <;> simp_all [Numeral.text, Numeral.value, numeral?]

end Diagram
