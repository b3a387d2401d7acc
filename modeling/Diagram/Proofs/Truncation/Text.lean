import Diagram.Proofs.Clean.Spelling
import Diagram.Proofs.Sound.Container
import Diagram.Proofs.Truncation.Balanced

/-!
The brackets in texts, paths and edges. `Balances F g` says that `g` reads over balanced text unless
it notices a problem. In a text without quotes, bars, comments and escapes, every bracket is one of
the grammar: those of a substitution and those of an edge index stand opposite to each other.
-/
namespace Diagram

/-- A character behind which brackets may stand that the grammar does not take for brackets. -/
def hidesBrackets (c : Char) : Bool :=
  c ∈ ['"', '\'', '|', '#', '\\']

/-- A text in which no bracket is hidden. -/
def Frame.Overt {π : Type} (F : Frame π) : Prop :=
  ∀ c ∈ F.text, hidesBrackets c = false

theorem isBracket_of_blank {c : Char} (hc : isBlank c = true) : isBracket c = false :=
  isBracket_eq_false (P := fun c => isBlank c = true) (by decide) hc

theorem isBracket_of_digit {c : Char} (hc : c.isDigit = true) : isBracket c = false :=
  isBracket_eq_false (P := fun c => c.isDigit = true) (by decide) hc

namespace Balanced

/-- Blanks, latest first, are balanced. -/
theorem blanks {b : List Char} (hb : ∀ x ∈ b, isBlank x = true) : Balanced b.reverse :=
  .of_plain fun x hx => isBracket_of_blank (hb x (List.mem_reverse.mp hx))

/-- Blanks and a character behind them. -/
theorem behindBlanks {b : List Char} {c : Char} (hb : ∀ x ∈ b, isBlank x = true)
    (hc : isBracket c = false) : Balanced (c :: b).reverse := by
  rw [List.reverse_cons]
  exact (blanks hb).append (.single hc)

end Balanced

namespace Grammar

variable {π α β σ : Type} {F : Frame π} {p : List Char}

/-! ## Rules -/

/-- Unless a problem has been noticed, balanced text has been consumed behind `p`. -/
def ConsumesBalanced (F : Frame π) (p : List Char) : α → State π → Prop :=
  Consumes F p fun _ u => Balanced u.reverse

/-- Wherever `g` starts, it consumes balanced text or notices a problem. -/
def Balances (F : Frame π) (g : Grammar π α) : Prop :=
  ∀ p, Ensures (State.At F p []) g (ConsumesBalanced F p)

namespace Ensures

variable {P : State π → Prop}

/-- A result behind balanced text. -/
theorem balanced {b : β} {q : List Char} (u : List Char) (hq : q = u ++ p)
    (hu : Balanced u.reverse) : Ensures (State.At F q []) (Pure.pure b) (ConsumesBalanced F p) :=
  .consumed u hq hu

/-- What is balanced behind balanced text is balanced together with it. -/
theorem behindBalanced {g : Grammar π β} {q : List Char} (v : List Char)
    (hg : Ensures P g (ConsumesBalanced F q)) (hq : q = v ++ p) (hv : Balanced v.reverse) :
    Ensures P g (ConsumesBalanced F p) :=
  .tailClean v hg hq fun _ u hu => by
    rw [List.reverse_append]
    exact hv.append hu

end Ensures

namespace Balances

theorem pure (a : α) : Balances F (Pure.pure a : Grammar π α) :=
  fun _ => .balanced [] rfl .nil

theorem bind {g : Grammar π α} {f : α → Grammar π β} (hg : Balances F g)
    (hf : ∀ a, Balances F (f a)) : Balances F (g >>= f) :=
  fun p => .callClean (hg p) fun a u hu => .behindBalanced u (hf a (u ++ p)) rfl hu

/-- A repetition of balanced steps. -/
theorem repeating {step : σ → Grammar π (Next σ)} {M N : σ → Nat → Prop} {g : σ}
    (hreads : ∀ g q, M g q.length → Ensures (State.At F q []) (step g) (Steps F q.length M N))
    (hstep : ∀ g, Balances F (step g)) (hM : M g p.length) :
    Ensures (State.At F p []) (Grammar.repeating step g) (ConsumesBalanced F p) := by
  refine repeating_consumes (I := fun _ u => Balanced u.reverse) hreads (fun g u hu => ?_) hM .nil
  refine .weaken (.behindBalanced u (hstep g (u ++ p)) rfl hu) fun next s h hclean => ?_
  obtain ⟨w, hat, hw⟩ := h hclean
  cases next <;> exact ⟨w, hat, hw⟩

end Balances

/-! ## Texts and paths -/

theorem isBracket_of_unquoted {role : Role π} {c : Char} (hc : endsUnquoted role c = false) :
    isBracket c = false :=
  isBracket_eq_false (P := fun c => endsUnquoted role c = false) (by simp [endsUnquoted]) hc

/-- An unquoted text is balanced if the substitutions in it are. -/
theorem unquotedKeeps_balanced (hovert : F.Overt) {role : Role π} (hreads : role.Reads F)
    (hsubstitution : ∀ q, Ensures (State.At F ('$' :: q) []) role.substitution?
      (Consumes F ('$' :: q) fun r w => (r = none → w = []) ∧
        (r.isSome = true → Balanced w.reverse))) :
    UnquotedKeeps F p role (fun w => Balanced w.reverse) fun _ u => Balanced u.reverse where
  reads := hreads
  substitution := hsubstitution
  empty := .nil
  push g u c hc _ hu := by
    rw [List.reverse_cons]
    exact hu.append (.single (isBracket_of_unquoted hc.inside))
  escape g u c h _ := absurd (hovert _ (List.mem_of_getElem? h)) (by decide)
  continuation g u b h _ _ := absurd (hovert _ (List.mem_of_getElem? h)) (by decide)
  substituted g u r w hw hu := by
    rw [List.reverse_append, List.reverse_cons, List.append_assoc]
    exact hu.append (.plain (by decide) hw)

theorem text_balances (hovert : F.Overt) {role : Role π}
    (hkeeps : ∀ p, UnquotedKeeps F p role (fun w => Balanced w.reverse)
      fun _ u => Balanced u.reverse) :
    Balances F (text role) := by
  intro p
  refine .peekOverLine (.balanced [] rfl .nil) fun b c hb hc => .accept ?_
  rw [List.append_nil]
  refine .known_of_consumed fun hknown => ?_
  have hovert := hovert c (List.mem_of_getElem? hknown)
  refine .ite ?_ fun _ => .ite ?_ fun _ => .ite ?_ fun _ => .putBack (ne_newline_of_visible hc) ?_
  · rintro rfl
    exact absurd hovert (by decide)
  · rintro rfl
    exact absurd hovert (by decide)
  · rintro rfl
    exact absurd hovert (by decide)
  · refine .behindBalanced b ?_ rfl (.blanks hb.blank)
    exact .tailClean [] (unquotedText_consumes (hkeeps (b ++ p))) rfl fun _ u ⟨_, hu, _⟩ => by
      rwa [List.append_nil]

theorem keyText_balances (hovert : F.Overt) : Balances F (text .key) :=
  text_balances hovert fun _ => unquotedKeeps_balanced hovert Role.key_reads fun _ =>
    .consumed [] rfl ⟨fun _ => rfl, fun h => by cases h⟩

theorem pathPoint_balances (segments : List (Text (Span π))) : Balances F (pathPoint segments) := by
  refine fun p => .peekOverLine (.balanced [] rfl .nil) fun b c hb _ =>
    .ite (fun hpoint => .accept ?_) fun _ => .retreat (.balanced [] rfl .nil)
  exact .balanced (c :: b) (by simp) (.behindBlanks hb.blank (hpoint ▸ by decide))

theorem pathSegment_balances (hovert : F.Overt) (segments : List (Text (Span π))) :
    Balances F (pathSegment segments) := by
  refine fun p => .peekOnLine (.balanced [] rfl .nil) fun b c _ => .retreat
    (.ite (fun _ => .balanced [] rfl .nil) fun _ => ?_)
  refine Balances.bind (keyText_balances hovert) (fun r => ?_) p
  cases r with
  | none => exact .pure _
  | some segment => exact pathPoint_balances _

theorem path_balances (hovert : F.Overt) : Balances F path := by
  refine fun p => .here (.callClean (Balances.repeating (M := PathWithin F p.length)
    (fun _ _ h => pathSegment_reads h) (pathSegment_balances hovert) (Nat.le_refl _))
    fun segments u hu => ?_)
  exact .ite (fun _ => .balanced u rfl hu) fun _ => .here (.balanced u rfl hu)

/-- A path, and where it lies. -/
theorem path_lies (hovert : F.Overt) (p : List Char) :
    Ensures (State.At F p []) path (Consumes F p fun r u => Balanced u.reverse ∧
      ∀ x ∈ r, x.Within F.cover p.length (u ++ p).length) :=
  .consumes_and (path_balances hovert p)
    (.consumes (v := []) (path_reads p) (Nat.le_refl _) fun _ _ h => h)

/-! ## Substitutions -/

theorem substitutionEnd_closes (start : π) (p : List Char) :
    Ensures (State.At F p []) (substitutionEnd start)
      (Consumes F p fun _ u => ∃ b, u = '}' :: b ∧ ∀ x ∈ b, isBlank x = true) := by
  refine .peekOverBlanks (.last .unclean_toReach) fun b c hb _ => .ite (fun hbrace => ?_) fun _ =>
    .retreat (.last .unclean_toHere)
  obtain ⟨rfl, -⟩ : c = '}' ∧ b.count '\n' = 0 := by simpa using hbrace
  exact .last (.accept (.consumed ('}' :: b) (by simp) ⟨b, rfl, hb⟩))

/-- The braces of a substitution stand opposite to each other, or nothing is read. -/
theorem substitutionFrom_balances (hovert : F.Overt) (start : π) (spread : Bool) (p : List Char) :
    Ensures (State.At F p []) (substitutionFrom start spread)
      (Consumes F p fun r w => (r = none → w = []) ∧ Balanced w.reverse) := by
  refine .peekOverLine (.consumed [] rfl ⟨fun _ => rfl, .nil⟩) fun b c hb _ =>
    .ite (fun _ => .retreat .unclean_toReach) fun hbrace => .accept ?_
  obtain rfl : c = '{' := by simpa using hbrace
  refine .callClean (path_balances hovert _) fun path u hu =>
    .callClean (substitutionEnd_closes start _) fun _ w ⟨b', hw, hb'⟩ => .here ?_
  subst hw
  refine .consumed ('}' :: (b' ++ (u ++ '{' :: b))) (by simp) ⟨nofun, ?_⟩
  have henclosed : Balanced ('{' :: (u.reverse ++ b'.reverse ++ '}' :: [])) :=
    .enclosed .braces (hu.append (.blanks hb')) .nil
  simpa using (Balanced.blanks hb.blank).append henclosed

theorem substitution_balances (hovert : F.Overt) (q : List Char) :
    Ensures (State.At F ('$' :: q) []) (substitution false)
      (Consumes F ('$' :: q) fun r w => (r = none → w = []) ∧
        (r.isSome = true → Balanced w.reverse)) :=
  .placeOf (by decide) ((substitutionFrom_balances hovert _ false _).weaken
    fun _ _ h hclean => (h hclean).imp fun _ ⟨hat, hnone, hw⟩ => ⟨hat, hnone, fun _ => hw⟩)

theorem spreadSubstitution_balances (hovert : F.Overt) (p : List Char) :
    Ensures (State.At F ('$' :: '.' :: '.' :: '.' :: p) []) (substitution true)
      (ConsumesBalanced F p) := by
  refine .placeOf (by decide) (.beforeAll (b := ['$']) (p := p) rfl rfl (by simp) ?_)
  refine .behindBalanced ['$', '.', '.', '.'] ?_ rfl (.of_plain (by simp [isBracket]))
  refine (substitutionFrom_balances hovert _ true _).weaken fun _ _ h hclean => ?_
  obtain ⟨u, hat, -, hu⟩ := h hclean
  exact ⟨u, hat, hu⟩

theorem valueText_balances (hovert : F.Overt) : Balances F valueText :=
  text_balances hovert fun _ =>
    unquotedKeeps_balanced hovert Role.value_reads (substitution_balances hovert)

/-! ## Edges -/

theorem isBracket_of_head {c : Char} {head : Arrowhead} (h : sourceHead? c = some head) :
    isBracket c = false :=
  isBracket_eq_false (P := fun c => (sourceHead? c).isSome = true) (by decide) (h ▸ rfl)

theorem edgeCharacter_balances (hovert : F.Overt) (start : π) (head : Option Arrowhead) :
    Balances F (edgeCharacter start head) := by
  refine fun p => .peek .unclean_toReach fun c => .ite (fun hc => .accept ?_) fun _ =>
    .ite (fun hc => .accept ?_) fun _ => .ite (fun hc => .accept ?_) fun _ =>
    .ite (fun hc => .accept ?_) fun _ => .retreat (.balanced [] rfl .nil)
  · exact .balanced [c] rfl (.single (hc ▸ by decide))
  · exact .balanced [c] rfl (.single (hc ▸ by decide))
  · subst hc
    exact .known_of_consumed fun hknown =>
      absurd (hovert _ (List.mem_of_getElem? hknown)) (by decide)
  · exact .balanced [c] rfl (.single (hc ▸ by decide))

theorem edgeLine_balances (hovert : F.Overt) (start : π) : Balances F (edgeLine start) :=
  fun _ => Balances.repeating (M := fun _ _ => True)
    (fun head q _ => edgeCharacter_reads start head q) (edgeCharacter_balances hovert start) trivial

theorem edgeTarget_balances (hovert : F.Overt) (chain : Chain π) (head : Arrowhead) (start : π)
    (targetHead : Arrowhead) : Balances F (edgeTarget chain head start targetHead) := by
  refine fun p => .here (.callClean (path_balances hovert p) fun target u hu => ?_)
  cases target with
  | none => exact .unclean_toHere
  | some target => exact .balanced u rfl hu

theorem edgeFrom_balances (hovert : F.Overt) (chain : Chain π) {b : List Char} {c : Char}
    {head : Arrowhead} (hb : ∀ x ∈ b, isBlank x = true) (hc : c ≠ '\n')
    (hhead : sourceHead? c = some head) (p : List Char) :
    Ensures (State.At F p (c :: b)) (edgeFrom chain c head) (ConsumesBalanced F p) := by
  rw [edgeFrom]
  cases chain.source with
  | none =>
    rw [edgeStart, bind_assoc]
    refine .lookedPlace ?_
    rw [bind_assoc]
    refine .before hc ?_
    rw [bind_assoc]
    exact .unclean
  | some source =>
    rw [edgeStart, pure_bind]
    refine .accept (.behindBalanced (c :: b) ?_ rfl (.behindBlanks hb (isBracket_of_head hhead)))
    refine Balances.bind (edgeLine_balances hovert _) (fun targetHead => ?_) _
    cases targetHead with
    | none => exact .pure _
    | some targetHead => exact edgeTarget_balances hovert _ _ _ _

theorem nextEdge_balances (hovert : F.Overt) (chain : Chain π) : Balances F (nextEdge chain) := by
  refine fun p => .peekLine (fun _ => .balanced [] rfl .nil) fun b c hb hc => ?_
  dsimp only
  cases hhead : sourceHead? c with
  | none => exact .retreat (.balanced [] rfl .nil)
  | some head => exact edgeFrom_balances hovert chain hb hc.ne_newline hhead p

theorem edges_balances (hovert : F.Overt) {source : Option (KeyPath (Span π))} {n : Nat}
    (hn : n ≤ p.length) (hsource : ∀ path ∈ source, path.Within F.cover n p.length) :
    Ensures (State.At F p []) (edges source) (ConsumesBalanced F p) :=
  .callClean (Balances.repeating (M := Chain.Within F n) (fun _ _ h => nextEdge_reads h)
    (nextEdge_balances hovert) ⟨hn, by simp, hsource⟩) fun _ u hu => .balanced u rfl hu

/-! ## Edge indexes -/

theorem isBracket_of_index {cs : List Char} (h : IndexText cs) {c : Char} (hc : c ∈ cs) :
    isBracket c = false := by
  cases h with
  | number h => exact (h c hc).elim isBracket_of_digit fun hblank => isBracket_of_blank hblank.1
  | all hfront hback =>
    rcases List.mem_append.mp hc with hc | hc
    · exact isBracket_of_blank (hfront c hc).1
    · rcases List.mem_cons.mp hc with rfl | hc
      · decide
      · exact isBracket_of_blank (hback c hc).1

/-- The brackets of an edge index stand opposite to each other, with none between them. -/
theorem edgeIndex_closes (p : List Char) :
    Ensures (State.At F ('[' :: p) []) edgeIndex (ConsumesBalanced F p) := by
  refine .tailClean ['['] (edgeIndex_consumes p) rfl fun _ u ⟨cs, hu, hcs⟩ => ?_
  have henclosed : Balanced ('[' :: (cs ++ ']' :: [])) :=
    .enclosed .squares (.of_plain fun c hc => isBracket_of_index hcs hc) .nil
  simpa [hu] using henclosed

end Grammar

end Diagram
