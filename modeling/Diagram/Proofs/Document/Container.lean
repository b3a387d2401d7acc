import Diagram.Proofs.Document.Text

/-!
Keys, lists and maps in their canonical form are read as what they stand for. What is said of a
container rests on what is said of the values in it; `value_written` puts both together, by
induction on the values inside each other.
-/
namespace Diagram

theorem Key.document?_plain {ρ : Type} {e : Document.Entry} {range : ρ} {k : KeyPath ρ}
    {x : Option (Value ρ)} (hk : k.document? = some e.path)
    (hx : x.map Value.document? = e.value.map some) :
    (Key.plain range k x).document? = some e := by
  obtain ⟨path, value⟩ := e
  cases x with
  | none =>
    obtain rfl : value = none := by simpa using hx.symm
    simp [Key.plain, Key.document?, hk]
  | some tree =>
    cases value with
    | none => simp at hx
    | some v =>
      have htree : tree.document? = some v := by simpa using hx
      simp [Key.plain, Key.document?, hk, htree]

namespace Grammar

variable {π : Type} {F : Frame π} {p u b : List Char}

/-! ## One after the other -/

section

variable {α τ : Type} {step : List τ → Grammar π (Next (List τ))} {render : α → List Char}
  {sep : List Char} {g : List τ}

/-- Written forms with a separator between them are read one after the other, each by one step, and
then what is behind them. -/
theorem repeating_written (view : τ → Option α) (Follows : List Char → Prop) (xs : List α)
    (hrender : ∀ x, render x ≠ [])
    (hstep : ∀ x ∈ xs, ∀ p b u g, (∀ c ∈ b, isBlank c = true) → Follows u →
      Ahead F p [] (b ++ (render x ++ u)) (step g) (Arrives F u fun next =>
        ∃ g', next = .again g' ∧ ∃ t, view t = some x ∧ g' = t :: g))
    (hfollows : ∀ v, Follows (sep ++ v))
    (hsep : ∀ p v g (Q : List τ → State π → Prop),
      (∀ q b, (∀ c ∈ b, isBlank c = true) → Ahead F q [] (b ++ v) (repeating step g) Q) →
      Ahead F p [] (sep ++ v) (repeating step g) Q)
    (hb : ∀ c ∈ b, isBlank c = true) (hu : Follows u) {Q : List τ → State π → Prop}
    (h : ∀ (ts : List τ) q b, ts.map view = xs.map some → (∀ c ∈ b, isBlank c = true) →
      Ahead F q [] (b ++ u) (repeating step (ts.reverse ++ g)) Q) :
    Ahead F p [] (b ++ (sep.intercalate (xs.map render) ++ u)) (repeating step g) Q := by
  induction xs generalizing p b g with
  | nil => exact h [] p b rfl hb
  | cons x xs ih =>
    have hlength : 0 < (render x).length := List.length_pos_iff.mpr (hrender x)
    have hmore : ∀ t, view t = some x → ∀ (ts : List τ) q b, ts.map view = xs.map some →
        (∀ c ∈ b, isBlank c = true) →
        Ahead F q [] (b ++ u) (repeating step (ts.reverse ++ t :: g)) Q := by
      intro t ht ts q b hts hb
      have hall := h (t :: ts) q b (by simp [ht, hts]) hb
      simpa using hall
    have hx := hstep x List.mem_cons_self p b
    cases xs with
    | nil =>
      have hone : sep.intercalate ([x].map render) = render x := by simp [List.intercalate]
      rw [hone]
      refine .again (hx u g hb hu) (by simp only [List.length_append]; omega) fun _ q hr => ?_
      obtain ⟨t, ht, rfl⟩ := hr
      exact hmore t ht [] q [] rfl (by simp)
    | cons y ys =>
      have hmany : sep.intercalate ((x :: y :: ys).map render) ++ u =
          render x ++ (sep ++ (sep.intercalate ((y :: ys).map render) ++ u)) := by
        simp [List.intercalate]
      rw [hmany]
      refine .again (hx _ g hb (hfollows _)) (by simp only [List.length_append]; omega)
        fun _ q hr => ?_
      obtain ⟨t, ht, rfl⟩ := hr
      -- the separator leaves blanks, with which the next written form begins
      apply hsep
      intro q b hb
      exact ih (fun z hz => hstep z (List.mem_cons_of_mem _ hz)) hb (hmore t ht)

end

/-! ## Keys -/

/-- The value `v` of a document is read back from its written form. -/
def ReadsBack (F : Frame π) (value : Grammar π (Option (Value (Span π)))) (v : Document.Value) :
    Prop :=
  ∀ p b u, (∀ x ∈ b, isBlank x = true ∧ x ≠ '\n') →
    Ahead F p [] (b ++ (v.render ++ u)) value
      (Arrives F u fun r => ∃ tree, r = some tree ∧ tree.document? = some v)

section

variable {value : Grammar π (Option (Value (Span π)))}

/-- Behind its path, an entry ends or goes on with its value. -/
theorem keyBehindPath_written {e : Document.Entry} (hvalue : ∀ v ∈ e.value, ReadsBack F value v)
    (hu : EndsLine u) (range : Span π) (k : KeyPath (Span π)) :
    Ahead F p [] (e.behindPath ++ u) (keyBehindPath value (Key.plain range k none))
      (Arrives F u fun key => ∃ x, x.map Value.document? = e.value.map some ∧
        key = Key.plain range k x) := by
  obtain ⟨path, v⟩ := e
  cases v with
  | none =>
    apply Ahead.mono (keyBehindPath_lineEnd hu)
    intro key h
    exact ⟨none, rfl, h⟩
  | some v =>
    have hback : ∀ q, Ahead F q [] (' ' :: (v.render ++ u)) value
        (Arrives F u fun r => ∃ tree, r = some tree ∧ tree.document? = some v) :=
      fun q => hvalue v rfl q [' '] u (List.forall_mem_singleton.mpr (by decide))
    apply Ahead.mono (keyBehindPath_colon hback hu)
    intro key h
    obtain ⟨tree, htree, rfl⟩ := h
    exact ⟨some tree, by simp [htree], rfl⟩

/-- **Entries**: an entry is read back up to the end of its line. -/
theorem key_written (e : Document.Entry) (hvalue : ∀ v ∈ e.value, ReadsBack F value v)
    (hu : EndsLine u) :
    Ahead F p [] (e.render ++ u) (key value)
      (Arrives F u fun r => ∃ k, r = some k ∧ k.document? = some e) := by
  have hfollows : FollowsPath (e.behindPath ++ u) := by
    obtain ⟨path, v⟩ := e
    cases v with
    | none => exact .inl hu
    | some v => exact .inr ⟨':', _, rfl, by decide, by decide⟩
  have hpath := fun q => path_written (F := F) (p := q) e.path hfollows
  obtain ⟨w, hw⟩ := e.path.render_cons
  rw [e.render_eq, List.append_assoc]
  rw [hw] at hpath ⊢
  have hbehind := fun range k q (_ : k.document? = some e.path) =>
    keyBehindPath_written (F := F) (p := q) hvalue hu range k
  apply Ahead.mono (key_found (by decide) hpath hbehind)
  intro r h
  obtain ⟨range, k, x, hk, hx, rfl⟩ := h
  exact ⟨_, rfl, Key.document?_plain hk hx⟩

/-! ## Items -/

/-- What stands behind an item of a list: a semicolon, or the end of the list. -/
def FollowsItem (u : List Char) : Prop :=
  ∃ c v, u = c :: v ∧ (c = ';' ∨ c = ']')

theorem FollowsItem.endsNode (h : FollowsItem u) : EndsNode ']' u := by
  obtain ⟨c, v, rfl, hc⟩ := h
  refine .inr ⟨c, v, rfl, ?_, hc⟩
  rcases hc with rfl | rfl
  · rfl
  · rfl

theorem item_written (v : Document.Value) (hvalue : ReadsBack F value v) (hu : FollowsItem u)
    {c : Char} {w : List Char} (hw : v.render ++ u = c :: w) (hc : c = '"' ∨ c = '[' ∨ c = '{') :
    Ahead F (c :: p) [] w (item value c)
      (Arrives F u fun r => ∃ tree, r = some (.value tree) ∧ tree.document? = some v) := by
  have hquote : c = '"' → ¬['"', '"'] <+: w := by
    rintro rfl
    obtain ⟨x, y, rfl, hx⟩ := hu
    refine v.not_opensComment ?_ hw
    rcases hx with rfl | rfl
    · simp
    · simp
  have hnode : isBlank c = false ∧ c ≠ '#' ∧ c ≠ '.' := by
    rcases hc with rfl | rfl | rfl
    · decide
    · decide
    · decide
  refine nodeStart_node hnode.1 hnode.2.1 hnode.2.2 hquote ?_
  rw [← hw]
  have hback := hvalue p [] u (by simp)
  rw [List.nil_append] at hback
  refine .call hback fun r q hr => ?_
  obtain ⟨tree, rfl, htree⟩ := hr
  exact .done ⟨tree, rfl, htree⟩

/-! ## Maps -/

variable [DecidableEq π] {opened : Option π} {gathered : List (Entry (Span π))}

/-- An entry is read with the end of its line in sight. -/
theorem mapStep_written (e : Document.Entry) (hvalue : ∀ v ∈ e.value, ReadsBack F value v)
    (hb : ∀ x ∈ b, isBlank x = true) (hu : EndsLine u) :
    Ahead F p [] (b ++ (e.render ++ u)) (mapStep value opened gathered)
      (Arrives F u fun next => ∃ entries, next = .again entries ∧
        ∃ k, k.document? = some e ∧ entries = .key k :: gathered) := by
  obtain ⟨w, hw⟩ : ∃ w, e.render ++ u = '"' :: w := by
    obtain ⟨w, hw⟩ := e.render_cons
    exact ⟨w ++ u, by rw [hw]; rfl⟩
  have hquote : '"' = '"' → ¬['"', '"'] <+: w := by
    intro _
    apply e.not_opensComment _ hw
    intro hquote
    cases hu '"' hquote
  have hkey := fun q => key_written (p := q) e hvalue hu
  rw [hw] at hkey ⊢
  exact mapStep_found hb (by decide) (by decide) hquote hkey hu

/-- The entries of a map are read one after the other, and then what is behind them. -/
theorem entries_written (es : List Document.Entry)
    (hvalue : ∀ e ∈ es, ∀ v ∈ e.value, ReadsBack F value v) (hb : ∀ x ∈ b, isBlank x = true)
    (hu : EndsLine u) {Q : List (Entry (Span π)) → State π → Prop}
    (h : ∀ new q b, Entry.documents? new = some es → (∀ x ∈ b, isBlank x = true) →
      Ahead F q [] (b ++ u) (repeating (mapStep value opened) (new.reverse ++ gathered)) Q) :
    Ahead F p [] (b ++ (['\n'].intercalate (Document.Entry.renderAll es) ++ u))
      (repeating (mapStep value opened) gathered) Q := by
  have hrender : ∀ e : Document.Entry, e.render ≠ [] := by
    intro e
    obtain ⟨w, hw⟩ := e.render_cons
    simp [hw]
  rw [Document.Entry.renderAll_eq]
  apply repeating_written Entry.document? EndsLine es hrender
  case hstep =>
    intro e he p b u gathered hb hu
    apply Ahead.mono (mapStep_written e (hvalue e he) hb hu)
    intro next hnext
    obtain ⟨entries, hagain, k, hk, hentries⟩ := hnext
    exact ⟨entries, hagain, .key k, hk, hentries⟩
  case hfollows => simp [EndsLine]
  case hsep =>
    intro p v gathered Q hrest
    exact hrest p ['\n'] (List.forall_mem_singleton.mpr (by decide))
  case hb => exact hb
  case hu => exact hu
  case h =>
    intro new q b hnew hb
    exact h new q b (Entry.documents?_of_map hnew) hb

/-- **Maps**: a map is read back with its entries. -/
theorem map_written (es : List Document.Entry) (hgroup : F.inGroup = false)
    (hdepth : F.depth < F.limit)
    (hvalue : ∀ e ∈ es, ∀ v ∈ e.value, ReadsBack F.deeper value v) :
    Ahead F ('{' :: p) []
      ('\n' :: (['\n'].intercalate (Document.Entry.renderAll es) ++ '\n' :: '}' :: u)) (map value)
      (Arrives F u fun m => Entry.documents? m.entries = some es) := by
  refine map_found (R := fun entries => Entry.documents? entries = some es) hgroup hdepth ?_
  intro start
  refine entries_written (b := ['\n']) es hvalue (List.forall_mem_singleton.mpr (by decide))
    (by simp [EndsLine]) ?_
  intro new q b hnew hb
  have hblank : ∀ x ∈ b ++ ['\n'], isBlank x = true := by
    intro x hx
    rcases List.mem_append.mp hx with hx | hx
    · exact hb x hx
    · obtain rfl := List.mem_singleton.mp hx
      rfl
  have hsplit : b ++ '\n' :: '}' :: u = (b ++ ['\n']) ++ '}' :: u := by simp
  rw [hsplit]
  apply Ahead.mono (.stop (mapStep_closing hblank))
  intro entries h
  rw [h]
  simpa using hnew

/-! ## Lists -/

variable {start : π} {items : List (Item (Span π))}

theorem sequenceStep_written (v : Document.Value) (hvalue : ReadsBack F value v)
    (hb : ∀ x ∈ b, isBlank x = true) (hu : FollowsItem u) :
    Ahead F p [] (b ++ (v.render ++ u)) (sequenceStep value start items)
      (Arrives F u fun next => ∃ items', next = .again items' ∧
        ∃ tree, tree.document? = some v ∧ items' = .value tree :: items) := by
  obtain ⟨c, w, hw, hc⟩ := v.render_cons
  have hw' : v.render ++ u = c :: (w ++ u) := by
    rw [hw]
    rfl
  have hitem : isBlank c = false ∧ c ≠ ';' ∧ c ≠ ']' := by
    rcases hc with rfl | rfl | rfl
    · decide
    · decide
    · decide
  rw [hw']
  refine .readVisible hb hitem.1 (.no hitem.2.1 (.no hitem.2.2 ?_))
  refine .call (item_written v hvalue hu hw' hc) fun r q hr => ?_
  obtain ⟨tree, rfl, htree⟩ := hr
  refine .call (trailingText_none hu.endsNode) fun _ q _ => .done ?_
  exact ⟨_, rfl, tree, htree, rfl⟩

/-- A semicolon between items is passed over. -/
theorem sequenceStep_semicolon :
    Ahead F p [] (';' :: u) (sequenceStep value start items)
      (Arrives F u fun next => ∃ items', next = .again items' ∧ items' = items) :=
  .readVisible (b := []) (by simp) (by decide) (.yes rfl (.done ⟨items, rfl, rfl⟩))

/-- The items of a list are read one after the other, and then what is behind them. -/
theorem items_written (vs : List Document.Value) (hvalue : ∀ v ∈ vs, ReadsBack F value v)
    (hb : ∀ x ∈ b, isBlank x = true) (hu : FollowsItem u)
    {Q : List (Item (Span π)) → State π → Prop}
    (h : ∀ new q b, Item.documents? new = some vs → (∀ x ∈ b, isBlank x = true) →
      Ahead F q [] (b ++ u) (repeating (sequenceStep value start) (new.reverse ++ items)) Q) :
    Ahead F p [] (b ++ ([';', ' '].intercalate (Document.Value.renderAll vs) ++ u))
      (repeating (sequenceStep value start) items) Q := by
  have hrender : ∀ v : Document.Value, v.render ≠ [] := by
    intro v
    obtain ⟨c, w, hw, -⟩ := v.render_cons
    simp [hw]
  rw [Document.Value.renderAll_eq]
  apply repeating_written Item.document? FollowsItem vs hrender
  case hstep =>
    intro v hv p b u items hb hu
    apply Ahead.mono (sequenceStep_written v (hvalue v hv) hb hu)
    intro next hnext
    obtain ⟨items', hagain, tree, htree, hitems⟩ := hnext
    exact ⟨items', hagain, .value tree, htree, hitems⟩
  case hfollows =>
    intro v
    exact ⟨';', ' ' :: v, rfl, .inl rfl⟩
  case hsep =>
    -- the semicolon has a step of its own, which gathers nothing
    intro p v items Q hrest
    refine .again sequenceStep_semicolon (by simp) fun _ q hr => ?_
    subst hr
    exact hrest q [' '] (List.forall_mem_singleton.mpr (by decide))
  case hb => exact hb
  case hu => exact hu
  case h =>
    intro new q b hnew hb
    exact h new q b (Item.documents?_of_map hnew) hb

/-- **Lists**: a list is read back with its items. -/
theorem sequence_written (vs : List Document.Value) (hdepth : F.depth < F.limit)
    (hvalue : ∀ v ∈ vs, ReadsBack F.deeper value v) :
    Ahead F ('[' :: p) []
      ([';', ' '].intercalate (Document.Value.renderAll vs) ++ ']' :: u) (sequence value)
      (Arrives F u fun s => Item.documents? s.items = some vs) := by
  refine .placeOf (by decide) (.belowLimit hdepth ?_)
  have hbody : Ahead F.deeper ('[' :: p) []
      ([';', ' '].intercalate (Document.Value.renderAll vs) ++ ']' :: u)
      (repeating (sequenceStep value (F.mark p.length)) [])
      (Arrives F.deeper u fun items => Item.documents? items.reverse = some vs) := by
    refine items_written (b := []) vs hvalue (by simp) ⟨']', u, rfl, .inr rfl⟩ ?_
    intro new q b hnew hb
    refine .stop (.readVisible hb (by decide) ?_)
    refine .no (by decide) (.yes rfl (.done ⟨_, rfl, ?_⟩))
    simpa using hnew
  exact .nested hbody fun items q h => .here (.done h)

end

/-! ## Values -/

variable [DecidableEq π]

theorem valueText_written (content : String) (inner : Grammar π (Option (Value (Span π)))) :
    Ahead F ('"' :: p) [] (content.toList.flatMap (Document.escape true) ++ '"' :: u)
      (valueFrom inner '"')
      (Arrives F u fun r => ∃ tree, r = some tree ∧ tree.document? = some (.text content)) := by
  refine .no (by decide) (.no (by decide) (.putBack (by decide) ?_))
  have htext : Ahead F p [] (Document.quoted true content ++ u)
      (text (.value (substitution false)))
      (Arrives F u fun r => ∃ t, r = some t ∧ Spells content t) :=
    text_written (b := []) (.inl rfl) content (by simp)
  rw [Document.quoted_append] at htext
  refine .call htext fun r q hr => ?_
  obtain ⟨t, rfl, hplain, range, pieces, rfl⟩ := hr
  refine .done ⟨.scalar (.text (.doubleQuoted range pieces)), rfl, ?_⟩
  simp [Value.document?, hplain]

/-- **Values**: a value is read back wherever there is room for the lists and maps in it. -/
theorem value_written (v : Document.Value) :
    ∀ (F : Frame π) (room : Nat), F.inGroup = false → v.nesting ≤ room →
      F.depth + v.nesting ≤ F.limit → ReadsBack F (valueWithin (room + 1)) v := by
  -- a level down, there is room for one container less, and the limit is one container closer
  induction v using Document.Value.nested_induction with
  | htext content =>
    intro F room hgroup _ _ p b u hb
    refine .outsideGroup hgroup ?_
    rw [Document.Value.render, Document.quoted_append]
    exact .peekOnLine hb (by decide) (.accept (valueText_written content _))
  | hlist vs ih =>
    intro F room hgroup hroom hlimit p b u hb
    rw [Document.Value.nesting] at hroom hlimit
    obtain ⟨room, rfl⟩ : ∃ k, room = k + 1 := ⟨room - 1, by omega⟩
    have hinner : ∀ v ∈ vs, ReadsBack F.deeper (valueWithin (room + 1)) v := by
      intro v hv
      have hle := Document.Value.nesting_le hv
      refine ih v hv F.deeper room hgroup (by omega) ?_
      simp only [Frame.deeper]
      omega
    refine .outsideGroup hgroup ?_
    rw [Document.Value.render, List.cons_append, List.append_assoc]
    refine .peekOnLine hb (by decide) (.accept (.yes rfl ?_))
    refine .call (sequence_written vs (by omega) hinner) fun s q hs => ?_
    refine .done ⟨.sequence s, rfl, ?_⟩
    cases s
    exact congrArg (Option.map Document.Value.list) hs
  | hmap es ih =>
    intro F room hgroup hroom hlimit p b u hb
    rw [Document.Value.nesting] at hroom hlimit
    obtain ⟨room, rfl⟩ : ∃ k, room = k + 1 := ⟨room - 1, by omega⟩
    have hinner : ∀ e ∈ es, ∀ v ∈ e.value, ReadsBack F.deeper (valueWithin (room + 1)) v := by
      intro e he v hv
      have hle := Document.Entry.nesting_le he hv
      refine ih e he v hv F.deeper room hgroup (by omega) ?_
      simp only [Frame.deeper]
      omega
    refine .outsideGroup hgroup ?_
    rw [Document.Value.render, List.cons_append, List.cons_append, List.append_assoc]
    refine .peekOnLine hb (by decide) (.accept (.no (by decide) (.yes rfl ?_)))
    refine .call (map_written es hgroup (by omega) hinner) fun m q hm => ?_
    refine .done ⟨.map m, rfl, ?_⟩
    cases m
    exact congrArg (Option.map Document.Value.map) hm

end Grammar

end Diagram
