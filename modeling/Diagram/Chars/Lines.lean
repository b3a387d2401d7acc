/-!
Cutting text at a separator. `fields` cuts at every occurrence and `joinWith` undoes it
(`joinWith_fields`); `cutFirst` and `cutLast` cut once, at the first or the last occurrence.
-/
namespace Diagram

/-- The stretches of text between the occurrences of `sep`; there is always at least one. -/
def fields (sep : Char) : List Char → List (List Char)
  | [] => [[]]
  | c :: cs =>
    if c = sep then [] :: fields sep cs
    else match fields sep cs with
      | [] => [[c]]
      | f :: fs => (c :: f) :: fs

/-- The stretches of text written one after the other with `sep` between them. -/
def joinWith (sep : Char) : List (List Char) → List Char
  | [] => []
  | [f] => f
  | f :: g :: fs => f ++ sep :: joinWith sep (g :: fs)

theorem fields_ne_nil (sep : Char) (cs : List Char) : fields sep cs ≠ [] := by
  cases cs with
  | nil => simp [fields]
  | cons c cs =>
    rw [fields]
    split
    · simp
    · split <;> simp

theorem joinWith_fields (sep : Char) (cs : List Char) : joinWith sep (fields sep cs) = cs := by
  induction cs with
  | nil => rfl
  | cons c cs ih =>
    rw [fields]
    cases h : fields sep cs with
    | nil => exact absurd h (fields_ne_nil sep cs)
    | cons f fs =>
      rw [h] at ih
      split
      · next hc => simp [joinWith, ih, hc]
      · cases fs <;> simp_all [joinWith]

theorem fields_of_not_mem {sep : Char} {cs : List Char} (h : sep ∉ cs) : fields sep cs = [cs] := by
  induction cs with
  | nil => rfl
  | cons c cs ih =>
    rw [fields, if_neg (List.ne_of_not_mem_cons h).symm, ih (List.not_mem_of_not_mem_cons h)]

theorem fields_append {sep : Char} {f : List Char} (h : sep ∉ f) (cs : List Char) :
    fields sep (f ++ sep :: cs) = f :: fields sep cs := by
  induction f with
  | nil => simp [fields]
  | cons c f ih =>
    rw [List.cons_append, fields, if_neg (List.ne_of_not_mem_cons h).symm,
      ih (List.not_mem_of_not_mem_cons h)]

theorem not_mem_of_mem_fields {sep : Char} {cs f : List Char}
    (h : f ∈ fields sep cs) : sep ∉ f := by
  induction cs generalizing f with
  | nil =>
    obtain rfl := List.mem_singleton.mp h
    exact List.not_mem_nil
  | cons c cs ih =>
    rw [fields] at h
    split at h
    · rcases List.mem_cons.mp h with rfl | h
      · exact List.not_mem_nil
      · exact ih h
    · next hc =>
      cases hcs : fields sep cs with
      | nil => exact absurd hcs (fields_ne_nil sep cs)
      | cons g gs =>
        simp only [hcs, List.mem_cons] at h ih
        rcases h with rfl | h
        · exact List.not_mem_cons_of_ne_of_not_mem (Ne.symm hc) (ih (.inl rfl))
        · exact ih (.inr h)

/-- Stretches without the separator are found where they are written with it between them. -/
theorem fields_joinWith {sep : Char} {fs : List (List Char)} (hne : fs ≠ [])
    (h : ∀ f ∈ fs, sep ∉ f) : fields sep (joinWith sep fs) = fs := by
  induction fs with
  | nil => exact absurd rfl hne
  | cons f fs ih =>
    obtain ⟨hf, hfs⟩ := List.forall_mem_cons.mp h
    cases fs with
    | nil => exact fields_of_not_mem hf
    | cons g fs => rw [joinWith, fields_append hf, ih (List.cons_ne_nil g fs) hfs]

/-- Behind the first, every stretch is written with the separator in front of it. -/
theorem joinWith_cons (sep : Char) (f : List Char) (fs : List (List Char)) :
    joinWith sep (f :: fs) = f ++ fs.flatMap (sep :: ·) := by
  induction fs generalizing f with
  | nil => simp [joinWith]
  | cons g fs ih => rw [joinWith, ih, List.flatMap_cons, List.cons_append]

/-- The lines of a text: the stretches between its newlines. -/
def lines (cs : List Char) : List (List Char) :=
  fields '\n' cs

/-- The text whose lines these are. -/
def unlines (ls : List (List Char)) : List Char :=
  joinWith '\n' ls

theorem lines_ne_nil (cs : List Char) : lines cs ≠ [] := fields_ne_nil '\n' cs

theorem unlines_lines (cs : List Char) : unlines (lines cs) = cs := joinWith_fields '\n' cs

/-- What stands before and after the first `sep`. -/
def cutFirst (sep : Char) : List Char → Option (List Char × List Char)
  | [] => none
  | c :: cs =>
    if c = sep then some ([], cs)
    else (cutFirst sep cs).map fun (before, rest) => (c :: before, rest)

/-- What stands before and after the last `sep`. -/
def cutLast (sep : Char) : List Char → Option (List Char × List Char)
  | [] => none
  | c :: cs =>
    match cutLast sep cs with
    | some (before, rest) => some (c :: before, rest)
    | none => if c = sep then some ([], cs) else none

theorem cutLast_of_not_mem {sep : Char} {cs : List Char} (h : sep ∉ cs) :
    cutLast sep cs = none := by
  induction cs with
  | nil => rfl
  | cons c cs ih =>
    rw [cutLast, ih (List.not_mem_of_not_mem_cons h)]
    exact if_neg (List.ne_of_not_mem_cons h).symm

theorem cutLast_append {sep : Char} (before : List Char) {rest : List Char} (h : sep ∉ rest) :
    cutLast sep (before ++ sep :: rest) = some (before, rest) := by
  induction before with
  | nil => simp [cutLast, cutLast_of_not_mem h]
  | cons c before ih => rw [List.cons_append, cutLast, ih]

theorem append_of_cutLast {sep : Char} {cs before rest : List Char}
    (h : cutLast sep cs = some (before, rest)) : cs = before ++ sep :: rest := by
  induction cs generalizing before with
  | nil => simp [cutLast] at h
  | cons c cs ih =>
    rw [cutLast] at h
    cases hcs : cutLast sep cs with
    | some cut =>
      obtain ⟨before', rest'⟩ := cut
      simp only [hcs, Option.some.injEq, Prod.mk.injEq] at h
      obtain ⟨rfl, rfl⟩ := h
      rw [ih hcs, List.cons_append]
    | none =>
      simp only [hcs] at h
      split at h
      · next hc =>
        simp only [Option.some.injEq, Prod.mk.injEq] at h
        obtain ⟨rfl, rfl⟩ := h
        rw [hc, List.nil_append]
      · exact nomatch h

end Diagram
