import Diagram.Proofs.Clean.Coverage
import Diagram.Proofs.Truncation.Text

/-!
The brackets in keys, maps, sequences and values. A container in which nothing is wrong is read up
to the bracket that closes it, over balanced text.
-/
namespace Diagram.Grammar

variable {π α : Type} {F : Frame π} {p : List Char}

/-! ## Edge groups -/

theorem groupPath_balances (hovert : F.Overt) (key : Key (Span π)) :
    Balances F (groupPath key) := by
  refine fun p => .acceptOverBlanks (fun b hb => ?_) (.balanced [] rfl .nil) (.balanced [] rfl .nil)
  refine .behindBalanced ('.' :: b) ?_ rfl (.behindBlanks hb.blank (by decide))
  exact Balances.bind (path_balances hovert) (fun _ => .pure _) _

theorem groupIndex_balances (hovert : F.Overt) (key : Key (Span π)) :
    Balances F (groupIndex key) := by
  refine fun p => .acceptOverBlanks (fun b hb => .behindBalanced b ?_ rfl (.blanks hb.blank))
    (groupPath_balances hovert key p) (.balanced [] rfl .nil)
  exact .callClean (edgeIndex_closes (b ++ p)) fun index u hu =>
    .behindBalanced u (groupPath_balances hovert _ _) rfl hu

theorem groupParts_balances (hovert : F.Overt) (key : Key (Span π)) :
    Balances F (groupParts key) := by
  refine fun p => .callClean (path_lies hovert p) fun source u ⟨hu, hsource⟩ =>
    .behindBalanced u (.callClean (edges_balances hovert (n := p.length) (by simp) hsource)
      fun edges w hw => .behindBalanced w ?_ rfl hw) rfl hu
  refine .acceptOverBlanks (fun b hb => ?_) .unclean_toHere .unclean_toHere
  exact .behindBalanced (')' :: b) (groupIndex_balances hovert _ _) rfl
    (.behindBlanks hb.blank (by decide))

/-! ## Keys -/

section

variable {value : Grammar π (Option (Value (Span π)))} (hovert : F.Overt)
  (hgroup : F.inGroup = false) (hvalue : Balances F value)

include hvalue

/-- A brace that is put back belongs to the value. -/
theorem mapBehind_balances (key : Key (Span π)) (scalar : Scalar (Span π)) :
    Balances F (mapBehind value key scalar) := by
  refine fun p => .peekOverLine (.balanced [] rfl .nil) fun b c hb hc =>
    .ite (fun hbrace => .accept ?_) fun _ => .retreat (.balanced [] rfl .nil)
  subst hbrace
  rw [List.append_nil]
  refine .putBack (by decide) (.behindBalanced b ?_ rfl (.blanks hb.blank))
  exact Balances.bind hvalue (fun _ => .pure _) _

theorem valueOfKey_balances (key : Key (Span π)) : Balances F (valueOfKey value key) := by
  refine fun p => .callClean (hvalue p) fun v u hu => ?_
  match v with
  | none => exact .here .unclean_atColon
  | some (.scalar scalar) =>
    exact .behindBalanced u (mapBehind_balances hvalue key scalar _) rfl hu
  | some (.sequence _) | some (.map _) => exact .balanced u rfl hu

theorem keyValue_balances (key : Key (Span π)) : Balances F (keyValue value key) := by
  refine fun p => .peekOverLine (.balanced [] rfl .nil) fun b c hb _ => .ite (fun _ => .retreat ?_)
    fun _ => .ite (fun hcolon => .accept ?_) fun _ => .retreat (.balanced [] rfl .nil)
  · exact .ite (fun _ => valueOfKey_balances hvalue key p) fun _ => .balanced [] rfl .nil
  · rw [List.append_nil]
    refine .behindBalanced (c :: b) ?_ rfl (.behindBlanks hb.blank (hcolon ▸ by decide))
    exact .whenever_clean .unclean_toHere fun _ => valueOfKey_balances hvalue key _

include hovert hgroup

theorem edgeGroup_balances (key : Key (Span π)) : Balances F (edgeGroup value key) := by
  intro p
  have hparts := groupParts_balances (F := F.grouped true) hovert key p
  refine .setGroup (.bindClean hparts fun r => .of_exists fun u => .of_and_right fun hu =>
    .setGroup ?_)
  rw [Frame.grouped_grouped hgroup]
  exact .ite (fun _ => .behindBalanced u (keyValue_balances hvalue r.1 _) rfl hu) fun _ =>
    .balanced u rfl hu

theorem keyBehindPath_balances (key : Key (Span π)) {n : Nat} (hn : n ≤ p.length)
    (hpath : ∀ x ∈ key.path, x.Within F.cover n p.length) :
    Ensures (State.At F p []) (keyBehindPath value key) (ConsumesBalanced F p) := by
  refine .peekOverLine (.balanced [] rfl .nil) fun b c hb _ => .ite (fun hparen => .accept ?_)
    fun _ => .ite (fun _ => .retreat ?_) fun _ => .retreat (keyValue_balances hvalue key p)
  · rw [List.append_nil]
    exact .behindBalanced (c :: b) (edgeGroup_balances hovert hgroup hvalue key _) rfl
      (.behindBlanks hb.blank (hparen ▸ by decide))
  · exact .callClean (edges_balances hovert hn hpath) fun edges u hu =>
      .behindBalanced u (keyValue_balances hvalue _ _) rfl hu

theorem keyBehindAmpersand_balances (key : Key (Span π)) :
    Balances F (keyBehindAmpersand value key) := by
  refine fun p => .peek (.balanced [] rfl .nil) fun c => .ite (fun hparen => .accept ?_) fun _ =>
    .retreat (.callClean (path_lies hovert p) fun path u ⟨hu, hpath⟩ => ?_)
  · exact .behindBalanced [c] (edgeGroup_balances hovert hgroup hvalue key _) rfl
      (.single (hparen ▸ by decide))
  · exact .behindBalanced u (keyBehindPath_balances hovert hgroup hvalue _ (n := p.length)
      (by simp) hpath) rfl hu

theorem key_balances : Balances F (key value) := by
  have hparts : ∀ key, Balances F (keyParts value key) := by
    refine fun key p => .peek (.balanced [] rfl .nil) fun c => .ite (fun hmark => .accept ?_)
      fun _ => .retreat (keyBehindAmpersand_balances hovert hgroup hvalue key p)
    exact .behindBalanced [c] (keyBehindAmpersand_balances hovert hgroup hvalue _ _) rfl
      (.single (hmark ▸ by decide))
  exact fun p => .here (.callClean (hparts _ p) fun key u hu => .here
    (.ite (fun _ => .balanced u rfl hu) fun _ => .balanced u rfl hu))

end

/-! ## Maps and sequences -/

/-- What is read up to a closing bracket, over balanced text. -/
def Closed (closing : Char) (_ : α) (u : List Char) : Prop :=
  ∃ a, u = closing :: a.reverse ∧ Balanced a

/-- What a step inside a container consumes: balanced text, and then perhaps the closing bracket. -/
def Inside {σ : Type} (closing : Char) : Next σ → List Char → Prop :=
  Next.Fits (fun _ u => Balanced u.reverse) (Closed closing)

/-- What is read behind balanced text inside a container. -/
theorem Ensures.behindInside {σ : Type} {P : State π → Prop} {g : Grammar π (Next σ)}
    {closing : Char} {q : List Char} (v : List Char)
    (hg : Ensures P g (Consumes F q (Inside closing)))
    (hq : q = v ++ p) (hv : Balanced v.reverse) : Ensures P g (Consumes F p (Inside closing)) := by
  refine .tailClean v hg hq fun next u hu => ?_
  cases next with
  | again _ =>
    show Balanced (u ++ v).reverse
    rw [List.reverse_append]
    exact hv.append hu
  | stop _ =>
    obtain ⟨a, rfl, ha⟩ := hu
    exact ⟨v.reverse ++ a, by simp, hv.append ha⟩

/-- A node of a container, or none. -/
theorem nodeStart_balances (hovert : F.Overt) {c : Char} (hc : isBlank c = false) (p : List Char) :
    Ensures (State.At F (c :: p) []) (nodeStart c) (ConsumesBalanced F p) := by
  have hnode : Ensures (State.At F (c :: p) []) (startNode c) (ConsumesBalanced F p) :=
    .putBack (ne_newline_of_visible hc) (.balanced [] rfl .nil)
  refine .known_of_consumed fun hknown => ?_
  have hvisible := hovert c (List.mem_of_getElem? hknown)
  refine .ite ?_ fun _ => .ite ?_ fun _ => .ite ?_ fun _ => hnode
  · rintro rfl
    exact absurd hvisible (by decide)
  · rintro rfl
    exact absurd hvisible (by decide)
  · rintro rfl
    refine .acceptExactly ?_ hnode
    exact .callClean (spreadSubstitution_balances hovert p) fun _ u hu => .balanced u rfl hu

/-- A container that is skipped is reported. -/
theorem skipContainer_unclean {β : Type} {P : State π → Prop} {Q : β → State π → Prop} (start : π)
    (opening closing : Char) (unterminated : Cause) (f : Unit → Grammar π β) :
    Ensures P (skipContainer start opening closing unterminated >>= f) (IfClean Q) := by
  simp only [skipContainer, bind_assoc]
  exact .bind (R := fun _ _ => True) (fun _ _ => trivial) fun _ => .unclean_toHere

section

variable {value : Grammar π (Option (Value (Span π)))} [DecidableEq π]

theorem entryLine_balances (hovert : F.Overt) (hgroup : F.inGroup = false)
    (hvalue : Balances F value) (entries : List (Entry (Span π))) {c : Char}
    (hc : isBlank c = false) (p : List Char) :
    Ensures (State.At F (c :: p) []) (entryLine value entries c)
      (Consumes F p (Inside '}')) := by
  have hentry : Ensures (State.At F (c :: p) []) (entry value c) (ConsumesBalanced F p) := by
    refine .callClean (nodeStart_balances hovert hc p) fun start u hu => ?_
    cases start with
    | remark r => exact .balanced u rfl hu
    | node =>
      exact .behindBalanced u
        (Balances.bind (key_balances hovert hgroup hvalue) (fun _ => .pure _) _) rfl hu
  refine .callClean hentry fun e u hu => ?_
  split
  · exact .consumed u rfl hu
  · exact .bindClean (trailingText_clean _ _ _ _) fun _ => .of_and_right fun _ => .consumed u rfl hu

theorem mapStep_balances (hovert : F.Overt) (hgroup : F.inGroup = false) (hvalue : Balances F value)
    (start : π) {entries : List (Entry (Span π))} {u : List Char} (hu : Balanced u.reverse) :
    Ensures (State.At F (u ++ p) []) (mapStep value (some start) entries)
      (Consumes F p (Inside '}')) := by
  refine .readOverBlanks (fun _ _ _ => .unclean_toReach) fun b c hb hc => ?_
  have hbu : Balanced (b ++ u).reverse := by
    rw [List.reverse_append]
    exact hu.append (.blanks hb)
  refine .behindInside (b ++ u) (.ite (fun hsemicolon => ?_) fun _ => .ite (fun hclosing => ?_)
    fun _ => ?_) (List.append_assoc b u p).symm hbu
  · exact .consumed [c] rfl (.single (hsemicolon ▸ by decide))
  · exact .consumed [c] rfl ⟨[], by rw [hclosing]; rfl, .nil⟩
  · exact entryLine_balances hovert hgroup hvalue entries hc _

/-- **Maps**: a map in which nothing is wrong is read up to the brace that closes it. -/
theorem map_closes (hovert : F.Overt) (hgroup : F.inGroup = false)
    (hreads : F.depth < F.limit → Reads F.deeper (Value.Within F.cover) value)
    (hvalue : F.depth < F.limit → Balances F.deeper value) (p : List Char) :
    Ensures (State.At F ('{' :: p) []) (map value) (Consumes F ('{' :: p) fun m u =>
      m.range = F.cover p.length (u ++ '{' :: p).length ∧ Closed '}' m u) := by
  refine .outsideGroup hgroup (.placeOf (by decide) (.atLimit (.ite (fun _ => ?_) fun hroom => ?_)))
  · exact skipContainer_unclean _ _ _ _ _
  · have hdepth : F.depth < F.limit := by simpa using hroom
    refine .nestedClean (repeating_consumes (F := F.deeper) (M := EntriesWithin F.deeper p.length)
      (R := Closed '}') (fun _ _ h => mapStep_reads (F := F.deeper) hgroup (hreads hdepth) _ h)
      (fun _ _ hu => mapStep_balances (F := F.deeper) hovert hgroup (hvalue hdepth) _ hu)
      (Nat.le_succ p.length) .nil) fun entries u hu => ?_
    exact .here (.consumed u rfl ⟨rfl, hu⟩)

theorem itemLine_balances (hovert : F.Overt) (hvalue : Balances F value)
    (items : List (Item (Span π))) {c : Char} (hc : isBlank c = false) (p : List Char) :
    Ensures (State.At F (c :: p) []) (itemLine value items c)
      (Consumes F p (Inside ']')) := by
  have hitem : Ensures (State.At F (c :: p) []) (item value c) (ConsumesBalanced F p) := by
    refine .callClean (nodeStart_balances hovert hc p) fun start u hu => ?_
    cases start with
    | remark r => exact .balanced u rfl hu
    | node =>
      refine .behindBalanced u (.callClean (hvalue _) fun v w hw => ?_) rfl hu
      cases v with
      | some v => exact .balanced w rfl hw
      | none => exact .here (.read .unclean_toHere fun _ => .unclean_toHere)
  refine .callClean hitem fun x u hu => ?_
  split
  · exact .consumed u rfl hu
  · exact .bindClean (trailingText_clean _ _ _ _) fun _ => .of_and_right fun _ => .consumed u rfl hu

theorem sequenceStep_balances (hovert : F.Overt) (hvalue : Balances F value) (start : π)
    {items : List (Item (Span π))} {u : List Char} (hu : Balanced u.reverse) :
    Ensures (State.At F (u ++ p) []) (sequenceStep value start items)
      (Consumes F p (Inside ']')) := by
  refine .readOverBlanks (fun _ _ _ => .unclean_toReach) fun b c hb hc => ?_
  have hbu : Balanced (b ++ u).reverse := by
    rw [List.reverse_append]
    exact hu.append (.blanks hb)
  refine .behindInside (b ++ u) (.ite (fun hsemicolon => ?_) fun _ => .ite (fun hclosing => ?_)
    fun _ => ?_) (List.append_assoc b u p).symm hbu
  · exact .consumed [c] rfl (.single (hsemicolon ▸ by decide))
  · exact .consumed [c] rfl ⟨[], by rw [hclosing]; rfl, .nil⟩
  · exact itemLine_balances hovert hvalue items hc _

/-- **Sequences**: a sequence in which nothing is wrong is read up to the bracket that closes it. -/
theorem sequence_closes (hovert : F.Overt)
    (hreads : F.depth < F.limit → Reads F.deeper (Value.Within F.cover) value)
    (hvalue : F.depth < F.limit → Balances F.deeper value) (p : List Char) :
    Ensures (State.At F ('[' :: p) []) (sequence value) (Consumes F ('[' :: p) fun s u =>
      s.range = F.cover p.length (u ++ '[' :: p).length ∧ Closed ']' s u) := by
  refine .placeOf (by decide) (.atLimit (.ite (fun _ => ?_) fun hroom => ?_))
  · exact skipContainer_unclean _ _ _ _ _
  · have hdepth : F.depth < F.limit := by simpa using hroom
    refine .nestedClean (repeating_consumes (F := F.deeper) (M := ItemsWithin F.deeper p.length)
      (R := Closed ']') (fun _ _ h => sequenceStep_reads (F := F.deeper) (hreads hdepth) _ h)
      (fun _ _ hu => sequenceStep_balances (F := F.deeper) hovert (hvalue hdepth) _ hu)
      (Nat.le_succ p.length) .nil) fun items u hu => ?_
    exact .here (.consumed u rfl ⟨rfl, hu⟩)

end

/-! ## Values -/

variable [DecidableEq π]

theorem Closed.balanced {opening closing : Char} (hkind : Brackets opening closing) {a : α}
    {u : List Char} (h : Closed closing a u) : Balanced (u ++ [opening]).reverse := by
  obtain ⟨cs, rfl, hcs⟩ := h
  simpa using Balanced.enclosed hkind hcs .nil

theorem valueFrom_balances {inner : Grammar π (Option (Value (Span π)))} (hovert : F.Overt)
    (hgroup : F.inGroup = false)
    (hreads : F.depth < F.limit → Reads F.deeper (Value.Within F.cover) inner)
    (hinner : F.depth < F.limit → Balances F.deeper inner) {c : Char} (hc : isBlank c = false)
    (p : List Char) :
    Ensures (State.At F (c :: p) []) (valueFrom inner c) (ConsumesBalanced F p) := by
  refine .ite ?_ fun _ => .ite ?_ fun _ => .putBack (ne_newline_of_visible hc) ?_
  · rintro rfl
    exact .callClean (sequence_closes hovert hreads hinner p) fun _ u ⟨_, hu⟩ =>
      .balanced (u ++ ['[']) (by simp) (hu.balanced .squares)
  · rintro rfl
    exact .callClean (map_closes hovert hgroup hreads hinner p) fun _ u ⟨_, hu⟩ =>
      .balanced (u ++ ['{']) (by simp) (hu.balanced .braces)
  · exact Balances.bind (valueText_balances hovert) (fun _ => .pure _) p

theorem valueWithin_succ_balances {room : Nat} (hovert : F.Overt) (hgroup : F.inGroup = false)
    (hreads : F.depth < F.limit → Reads F.deeper (Value.Within F.cover) (valueWithin room))
    (hinner : F.depth < F.limit → Balances F.deeper (valueWithin room)) :
    Balances F (valueWithin (room + 1)) := by
  intro p
  refine .outsideGroup hgroup (.peekOverLine (.balanced [] rfl .nil) fun b c hb hc => .accept ?_)
  rw [List.append_nil]
  exact .behindBalanced b (valueFrom_balances hovert hgroup hreads hinner hc _) rfl
    (.blanks hb.blank)

/-- **Values**: with room for all the containers that may be entered, a value is balanced or
something is wrong with it. -/
theorem valueWithin_balances (room : Nat) (hovert : F.Overt) (hgroup : F.inGroup = false)
    (hroom : F.limit ≤ F.depth + room) : Balances F (valueWithin (room + 1)) := by
  induction room generalizing F with
  | zero =>
    exact valueWithin_succ_balances hovert hgroup (fun hdepth => absurd hdepth (by omega))
      fun hdepth => absurd hdepth (by omega)
  | succ room ih =>
    have hdeeper : F.deeper.limit ≤ F.deeper.depth + room := by
      simp only [Frame.deeper]
      omega
    exact valueWithin_succ_balances hovert hgroup
      (fun _ => valueWithin_reads (F := F.deeper) room hgroup hdeeper)
      fun _ => ih (F := F.deeper) hovert hgroup hdeeper

end Diagram.Grammar
