import Diagram.Proofs.Atoms.Parse

/-!
Unquoted text is the text that is written, as long as no backslash is. The end of an unquoted text
is remembered as the place behind its last visible character, and its literal is cut where only
blanks follow: both come to the same.
-/
namespace Diagram

variable {ρ σ : Type}

/-! ## Stretches of a text -/

section

variable {text : List Char} {n i j : Nat} {c : Char}

theorem extract_succ (hn : n ≤ i) (hc : text[i]? = some c) :
    text.extract n (i + 1) = text.extract n i ++ [c] := by
  rw [List.extract_eq_take_drop, List.extract_eq_take_drop, Nat.succ_sub hn, List.take_add_one,
    List.getElem?_drop, Nat.add_sub_cancel' hn, hc]
  rfl

theorem mem_extract_of_le (hij : i ≤ j) (h : c ∈ text.extract n i) : c ∈ text.extract n j := by
  rw [List.extract_eq_take_drop] at h ⊢
  exact (List.take_prefix_take_left (by omega)).subset h

theorem mem_extract (hn : n ≤ i) (hij : i < j) (hc : text[i]? = some c) :
    c ∈ text.extract n j := by
  refine mem_extract_of_le hij ?_
  rw [extract_succ hn hc]
  exact List.mem_append_right _ (List.mem_singleton_self c)

end

/-! ## Texts and scalars as they are written -/

/-- Neither starts nor ends with a blank, and is not empty. -/
def VisibleEnds (cs : List Char) : Prop :=
  (∃ c ∈ cs.head?, isBlank c = false) ∧ ∃ c ∈ cs.getLast?, isBlank c = false

section

variable (between : Nat → Nat → ρ) (text : List Char)

/-- The range is that of a stretch of the text, which has `R` unless there is a backslash in it. -/
def Covering (R : List Char → Prop) (range : ρ) : Prop :=
  ∃ i j, i ≤ j ∧ j ≤ text.length ∧ range = between i j ∧
    ('\\' ∉ text.extract i j → R (text.extract i j))

/-- An unquoted text without substitutions is one literal, which is what is written there. -/
def Text.Verbatim : Text ρ → Prop
  | .unquoted range pieces => (∃ x, .substitution x ∈ pieces) ∨
      Covering between text (fun cs => VisibleEnds cs ∧
        pieces = [.literal (String.ofList cs) (String.ofList cs)]) range
  | .doubleQuoted .. | .singleQuoted .. | .block .. => True

/-- The keyword of a scalar is written there up to the case of its letters, and a number is. -/
def Scalar.Verbatim : Scalar ρ → Prop
  | .null range => Covering between text (fun cs => Grammar.isKeyword "null" (.ofList cs)) range
  | .boolean range value => Covering between text
      (fun cs => Grammar.isKeyword (toString value) (.ofList cs)) range
  | .number range raw _ => Covering between text (fun cs => raw.toList = cs) range
  | .text t => t.Verbatim between text

def Atom.Verbatim : Atom ρ → Prop
  | .name t => t.Verbatim between text
  | .scalar s => s.Verbatim between text
  | .insertion _ | .spread _ => True

end

section

variable {between : Nat → Nat → ρ} {text : List Char}

theorem Covering.imp {R R' : List Char → Prop} {range : ρ} (h : Covering between text R range)
    (hR : ∀ cs, R cs → R' cs) : Covering between text R' range := by
  obtain ⟨i, j, hij, hj, hrange, hcovers⟩ := h
  exact ⟨i, j, hij, hj, hrange, fun hplain => hR _ (hcovers hplain)⟩

theorem Grammar.scalarOf_verbatim {t : Text ρ} (h : t.Verbatim between text) :
    (scalarOf t).Verbatim between text := by
  unfold scalarOf
  split
  case h_1 range value raw =>
    have hcovering : Covering between text (fun cs => value = .ofList cs) range := by
      rcases h with ⟨x, hx⟩ | h
      · simp at hx
      · refine h.imp fun cs ⟨_, hpieces⟩ => ?_
        exact (Piece.literal.inj (List.singleton_inj.mp hpieces)).1
    have hkeyword : ∀ {keyword : String}, isKeyword keyword value = true →
        Covering between text (fun cs => isKeyword keyword (.ofList cs)) range :=
      fun hvalue => hcovering.imp fun cs hcs => hcs ▸ hvalue
    split_ifs with hnull htrue hfalse
    · exact hkeyword hnull
    · exact hkeyword htrue
    · exact hkeyword hfalse
    · split
      · exact hcovering.imp fun cs hcs => by rw [hcs, String.toList_ofList]
      · exact h
  case h_2 => exact h

end

namespace Grammar

variable {π : Type} {F : Frame π} {S : Substitution (Span π) → Prop} {n : Nat}

/-! ## Reading -/

/-- What has been gathered is what is written from the index `n` to `i`, where nothing visible
stands from `k` on. -/
structure Gathered.Copies (text : List Char) (n i k : Nat) (g : Gathered π) : Prop where
  alone : g.pieces = []
  raw : g.raw.reverse = text.extract n i
  value : g.value = g.raw
  visible : (g.raw.dropWhile isBlank).reverse = text.extract n k

/-- An unquoted text that starts at the index `n` is what is written, unless it holds a substitution
or a backslash. -/
def Unquoted.Verbatim (F : Frame π) (n : Nat) (u : Unquoted π) (i : Nat) : Prop :=
  ∃ k, n ≤ k ∧ k ≤ i ∧ k ≤ F.text.length ∧ u.stop = F.mark k ∧
    ((∃ x, .substitution x ∈ u.text.pieces) ∨ '\\' ∈ F.text.extract n k ∨
      u.text.Copies F.text n i k)

theorem Gathered.Copies.push {text : List Char} {i k : Nat} {c : Char} {g : Gathered π}
    (h : g.Copies text n i k) (hn : n ≤ i) (hc : text[i]? = some c) :
    (g.push c).Copies text n (i + 1) (if isBlank c then k else i + 1) where
  alone := h.alone
  raw := by rw [extract_succ hn hc, ← h.raw, Gathered.push, List.reverse_cons]
  value := by rw [Gathered.push, h.value]
  visible := by
    cases hblank : isBlank c with
    | true => simpa [Gathered.push, hblank] using h.visible
    | false => simp [Gathered.push, hblank, extract_succ hn hc, h.raw]

theorem Unquoted.Verbatim.kept : Unquoted.Kept F S (Unquoted.Verbatim F n) where
  push {u i c} h hc _ := by
    obtain ⟨k, hn, hk, hlength, hstop, hread⟩ := h
    have hi : i < F.text.length := (List.getElem?_eq_some_iff.mp hc).1
    refine ⟨if isBlank c then k else i + 1, ?_, ?_, ?_, ?_, ?_⟩
    · split <;> omega
    · split <;> omega
    · split <;> omega
    · split
      · exact hstop
      · rfl
    · refine hread.imp_right (Or.imp (mem_extract_of_le ?_) fun h => h.push (by omega) hc)
      split <;> omega
  -- an escape and the end of a continued line leave a backslash in the stretch
  escape {u i c} h hslash hlength := by
    obtain ⟨k, hn, hk, -, -, -⟩ := h
    exact ⟨i + 2, by omega, Nat.le_refl _, hlength, rfl,
      .inr (.inl (mem_extract (by omega) (by omega) hslash))⟩
  elision {u i j} h hslash hij := by
    obtain ⟨k, hn, hk, -, -, -⟩ := h
    exact ⟨i + 1, by omega, hij, (List.getElem?_eq_some_iff.mp hslash).1, rfl,
      .inr (.inl (mem_extract (by omega) (Nat.lt_succ_self i) hslash))⟩
  substitution {u i j x} h hij hlength _ := by
    obtain ⟨k, hn, hk, -, -, -⟩ := h
    exact ⟨j, by omega, Nat.le_refl _, hlength, rfl,
      .inl ⟨x, by simp [Gathered.pushSubstitution]⟩⟩

theorem Unquoted.Verbatim.start (hn : n ≤ F.text.length) :
    Unquoted.Verbatim F n ⟨.empty, F.mark n⟩ n :=
  ⟨n, Nat.le_refl _, Nat.le_refl _, hn, rfl, .inr (.inr ⟨rfl, by simp [Gathered.empty], rfl,
    by simp [Gathered.empty]⟩)⟩

/-- The substitutions of a text stay in it to its end. -/
theorem Gathered.substitution_mem_finish {g : Gathered π} {x : Substitution (Span π)}
    (h : .substitution x ∈ g.pieces) : .substitution x ∈ g.finish := by
  rw [Gathered.finish, List.mem_reverse, Gathered.flush]
  split
  · exact h
  · exact List.mem_cons_of_mem _ h

section

variable {text : List Char} {i k : Nat} {g : Gathered π} (h : g.Copies text n i k)
  (hne : g.trimEnd.finish ≠ [])

include h hne

theorem Gathered.Copies.value_ne_nil : g.trimEnd.value.isEmpty = false := by
  cases hvalue : g.trimEnd.value.isEmpty with
  | true =>
    rw [Gathered.finish, Gathered.flush, if_pos hvalue, Gathered.trimEnd, h.alone] at hne
    exact absurd rfl hne
  | false => rfl

/-- Without the blanks at its end, a copied text is one literal. -/
theorem Gathered.Copies.finish : g.trimEnd.finish =
    [.literal (String.ofList (text.extract n k)) (String.ofList (text.extract n k))] := by
  rw [Gathered.finish, Gathered.flush_pieces (h.value_ne_nil hne)]
  simp only [Gathered.trimEnd, h.alone, h.value, h.visible, List.reverse_singleton]

theorem Gathered.Copies.visibleEnds {c : Char} (hc : text[n]? = some c)
    (hvisible : isBlank c = false) : VisibleEnds (text.extract n k) := by
  have hkept : g.raw.dropWhile isBlank ≠ [] := by
    rw [← h.value]
    exact List.isEmpty_eq_false_iff.mp (h.value_ne_nil hne)
  obtain ⟨d, ds, hraw⟩ := List.exists_cons_of_ne_nil hkept
  have hextract : text.extract n k = ds.reverse ++ [d] := by
    rw [← h.visible, hraw, List.reverse_cons]
  constructor
  · refine ⟨c, ?_, hvisible⟩
    have hlength := congrArg List.length hextract
    rw [List.extract_eq_take_drop] at hlength ⊢
    rw [List.head?_take, if_neg, List.head?_drop, hc]
    · rfl
    · rintro hzero
      simp [hzero] at hlength
  · have hlast := List.head?_dropWhile_not isBlank g.raw
    rw [hraw] at hlast
    exact ⟨d, by simp [hextract], by simpa using hlast⟩

end

/-- All unquoted texts that are read are what is written. -/
theorem text_verbatim {role : Role π} (hrole : role.Inserts F S) (p : List Char) :
    Ensures (State.At F p []) (text role) fun r _ => ∀ t ∈ r, t.Verbatim F.cover F.text := by
  refine text_ensures (fun p c hc hvisible => ?_) (fun p => ?_) (fun _ _ => trivial)
    (fun _ _ _ _ => trivial) p
  · refine (unquotedText_keeps Unquoted.Verbatim.kept hrole (.start ?_)).weaken fun r _ h t ht => ?_
    · exact Nat.le_of_lt (List.getElem?_eq_some_iff.mp hc).1
    obtain ⟨u, i, ⟨k, hn, hk, hlength, hstop, hread⟩, hne, rfl⟩ := h t ht
    rcases hread with ⟨x, hx⟩ | hslash | hcopies
    · exact .inl ⟨x, Gathered.substitution_mem_finish hx⟩
    · exact .inr ⟨p.length, k, hn, hlength, by rw [hstop]; rfl, fun hplain => absurd hslash hplain⟩
    · refine .inr ⟨p.length, k, hn, hlength, by rw [hstop]; rfl, fun _ => ?_⟩
      exact ⟨hcopies.visibleEnds hne hc hvisible, hcopies.finish hne⟩
  · refine (doubleQuotedText_keeps Gathered.Kept.trivial hrole p).weaken fun t _ h => ?_
    -- nothing is claimed of a quoted text
    obtain ⟨g, range, -, rfl⟩ := h
    trivial

/-- All that is read of a tape is what is written on it. -/
theorem verbatim_fits {T : Tape π} :
    Fits T (Atom.Verbatim (fun i j => ⟨T.mark i, T.mark j⟩) T.text) where
  name hF p s hs t ht := by
    subst hF
    exact text_verbatim (S := fun _ => True) Role.key_inserts p s hs t ht
  scalar hF p s hs t ht := by
    subst hF
    exact scalarOf_verbatim (text_verbatim (Role.value_inserts Fits.trivial) p s hs t ht)
  insertion _ _ := trivial
  spread _ _ := trivial

end Grammar

/-! ## The tree of a source -/

section

variable {between : Nat → Nat → ρ} {text : List Char} (f : ρ → σ)

theorem Covering.mapMarks {R : List Char → Prop} {range : ρ} (h : Covering between text R range) :
    Covering (fun i j => f (between i j)) text R (f range) := by
  obtain ⟨i, j, hij, hj, rfl, hcovers⟩ := h
  exact ⟨i, j, hij, hj, rfl, hcovers⟩

theorem Text.Verbatim.mapMarks {t : Text ρ} (h : t.Verbatim between text) :
    (t.mapMarks f).Verbatim (fun i j => f (between i j)) text := by
  cases t with
  | unquoted range pieces =>
    rcases h with ⟨x, hx⟩ | h
    · refine .inl ⟨x.mapMarks f, ?_⟩
      rw [Piece.mapMarksAll_eq]
      exact List.mem_map_of_mem hx
    · refine .inr ((h.mapMarks f).imp fun cs ⟨hends, hpieces⟩ => ⟨hends, ?_⟩)
      rw [hpieces]
      rfl
  | doubleQuoted _ _ | singleQuoted _ _ | block _ _ _ _ => trivial

theorem Atom.Verbatim.mapMarks {x : Atom ρ} (h : x.Verbatim between text) :
    (x.mapMarks f).Verbatim (fun i j => f (between i j)) text := by
  cases x with
  | name t => exact Text.Verbatim.mapMarks f h
  | scalar s =>
    cases s with
    | text t => exact Text.Verbatim.mapMarks f h
    | null _ | boolean _ _ | number _ _ _ =>
      simp only [Atom.Verbatim, Scalar.Verbatim] at h
      exact h.mapMarks f
  | insertion _ | spread _ => trivial

end

/-- **Verbatim text**: in the tree of a source, an unquoted text without substitutions is what is
written there, and so is the literal of a number and the keyword of a boolean or of null, unless
there is a backslash in what is written. -/
theorem parse_verbatim (label : String) (source : List Delivery) (options : Options) :
    Atom.All (Atom.Verbatim (rangeBetween label options.counting (delivered source))
      (delivered source)) (parse label source options).map.atoms := by
  intro x hx
  obtain ⟨y, hy, rfl⟩ := parse_atoms label Grammar.verbatim_fits x hx
  exact hy.mapMarks (Span.toRange label)

/-- What stands for null may be written with an escape. -/
theorem parse_reads_escaped_null :
    let text := "k: nul\\l".toList
    ¬∀ range, .scalar (.null range) ∈ (parse "t.d2" (deliveries text) {}).map.atoms →
      ∃ i j, i ≤ j ∧ j ≤ text.length ∧ range = rangeBetween "t.d2" .bytes text i j ∧
        Grammar.isKeyword "null" (.ofList (text.extract i j)) := by
  intro text hall
  -- whichever stretch the range is that of, it is not the keyword
  obtain ⟨i, j, hij, hj, hrange, hkeyword⟩ :=
    hall ⟨"t.d2", ⟨0, 3, 3⟩, ⟨0, 8, 8⟩⟩ (by decide +kernel)
  have hother : ∀ j ≤ text.length, ∀ i ≤ j,
      ⟨"t.d2", ⟨0, 3, 3⟩, ⟨0, 8, 8⟩⟩ = rangeBetween "t.d2" .bytes text i j →
        Grammar.isKeyword "null" (.ofList (text.extract i j)) = false := by
    decide +kernel
  exact absurd hkeyword (by simp [hother j hj i hij hrange])

end Diagram
