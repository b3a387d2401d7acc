import Diagram.Proofs.Ahead.Basic
import Diagram.Proofs.Twin.Repetition

/-!
A text, and the same text with a semicolon and more behind it. Two runs in plain indexes read them
side by side: up to the end of the text they come to the same, and behind it the first finds nothing
where the second finds the semicolon.

`Apart S P g₁ g₂ E` says how two parts of the grammar come out from states with `P`: both come to
the same result at the same place, or they come apart as `E` tells, or the comparison is moot. The
runs are `Abreast` where both read the same part.
-/
namespace Diagram

/-! ## Pairs of runs -/

/-- A run over a text, and a run over that text with a semicolon and more text behind it. -/
structure Seam where
  first : Frame Nat
  second : Frame Nat
  /-- What stands behind the semicolon. -/
  behind : List Char
  meter : first.meter = .index
  second_meter : second.meter = .index
  text : second.text = first.text ++ ';' :: behind
  depth : second.depth = first.depth
  limit : second.limit = first.limit
  inGroup : second.inGroup = first.inGroup

namespace Seam

variable (S : Seam)

/-- One level deeper. -/
def deeper : Seam :=
  { S with
    first := S.first.deeper, second := S.second.deeper, meter := S.meter,
    second_meter := S.second_meter, text := S.text, depth := congrArg (· + 1) S.depth,
    limit := S.limit, inGroup := S.inGroup }

/-- Inside the parentheses of an edge group, or outside. -/
def grouped (inGroup : Bool) : Seam :=
  { S with
    first := S.first.grouped inGroup, second := S.second.grouped inGroup, meter := S.meter,
    second_meter := S.second_meter, text := S.text, depth := S.depth, limit := S.limit,
    inGroup := rfl }

/-- The last visible character of the text. -/
def EndsIn (c : Char) : Prop :=
  firstVisible S.first.text.reverse = some c

/-- A problem that the second run notices because of what the text ends in: a closing parenthesis is
taken for text, or a dollar sign for the start of a substitution. -/
def Slip (cause : Cause) : Prop :=
  cause = .unterminatedEdgeGroup ∧ S.EndsIn ')' ∨ cause = .missingBrace ∧ S.EndsIn '$'

/-- There is nothing more to compare: the first run has noticed a problem, or the second has slipped
at the semicolon. -/
def Moot (s t : State Nat) : Prop :=
  s.problems ≠ [] ∨ ∃ x ∈ t.problems, S.Slip x.cause

/-- The text with a new line behind it, for what the first run does at the end of its text. -/
def pairing : Pairing Nat where
  first := S.first
  second := { S.first with text := S.first.text ++ ['\n'] }
  base := []
  tail := ['\n']
  shift := 0
  voids _ := True
  extra := []
  meter := S.meter
  text := rfl
  newline := by simp
  voids_of_tail _ _ := trivial
  blocks := .inl rfl
  depth := rfl
  inGroup := rfl

theorem tail_ne_nil : S.pairing.tail ≠ [] := List.cons_ne_nil _ _

/-- Both runs have consumed `p` and looked at `l`, latest first, and have found nothing wrong. -/
structure Beside (p l : List Char) (s t : State Nat) : Prop where
  first : s.At S.first p l
  second : t.At S.second p l
  first_clean : s.problems = []
  second_clean : t.problems = []

/-- The text ends in `p` and `l`, latest first: the first run has looked for more behind `p` and
found nothing, and the second has looked at `l` and the semicolon behind it. -/
structure Aside (p l : List Char) (s t : State Nat) : Prop where
  first : s.Stands S.first p [] l.reverse
  second : t.Stands S.second p (';' :: l) S.behind

variable {S} {p l : List Char} {s t : State Nat}

theorem Moot.mono {α β : Type} (h : S.Moot s t) (g₁ : Grammar Nat α) (g₂ : Grammar Nat β) :
    S.Moot (g₁ s).2 (g₂ t).2 := by
  refine h.imp (fun hne hnil => hne ?_) fun ⟨x, hx, hslip⟩ => ⟨x, (g₂.grows t).subset hx, hslip⟩
  exact List.suffix_nil.mp (hnil ▸ g₁.grows s)

theorem Beside.setReader {p' l' : List Char} {r r' : Reader Nat} (h : S.Beside p l s t)
    (hr : r.At S.first.toTape p' l') (hr' : r'.At S.second.toTape p' l') :
    S.Beside p' l' { s with reader := r } { t with reader := r' } :=
  ⟨h.first.setReader hr, h.second.setReader hr', h.first_clean, h.second_clean⟩

theorem Beside.length_le (h : S.Beside p l s t) : p.length + l.length ≤ S.first.text.length :=
  h.first.reader.length_le

theorem Beside.unread_eq (h : S.Beside p l s t) :
    t.reader.unread = s.reader.unread ++ ';' :: S.behind := by
  have hlength := h.length_le
  rw [h.second.reader.unread_eq, h.first.reader.unread_eq, S.text,
    List.drop_append_of_le_length hlength]

/-- What the first run has looked at up to the end of its text is left unread, and the second run
has looked at the semicolon behind it. -/
theorem Beside.setAside {r r' : Reader Nat} {b : List Char} (h : S.Beside p l s t)
    (hunread : s.reader.unread = b.reverse) (hr : r.At S.first.toTape p [])
    (hr' : r'.At S.second.toTape p (';' :: (b ++ l))) :
    S.Aside p (b ++ l) { s with reader := r } { t with reader := r' } := by
  have htext := h.first.reader.text
  rw [hunread] at htext
  have hfirst : p.reverse ++ [].reverse ++ r.unread =
      p.reverse ++ [].reverse ++ (b ++ l).reverse := by
    rw [hr.text, ← htext]
    simp
  have hsecond : p.reverse ++ (';' :: (b ++ l)).reverse ++ r'.unread =
      p.reverse ++ (';' :: (b ++ l)).reverse ++ S.behind := by
    rw [hr'.text, S.text, ← htext]
    simp
  exact ⟨⟨h.first.setReader hr, List.append_cancel_left hfirst, h.first_clean⟩,
    ⟨h.second.setReader hr', List.append_cancel_left hsecond, h.second_clean⟩⟩

end Seam

/-! ## Where a line is over -/

/-- Reading has come to the blanks of the line in front of `rest`, and nothing is wrong. -/
def State.Rests (F : Frame Nat) (rest : List Char) (s : State Nat) : Prop :=
  ∃ q b, LineBlanks b ∧ s.Stands F q [] (b ++ rest)

/-- Behind the parentheses of an edge group, reading stands outside of it again. -/
theorem State.Rests.ungroup {F : Frame Nat} {rest : List Char} {s : State Nat}
    (hF : F.inGroup = false) (h : s.Rests (F.grouped true) rest) :
    State.Rests F rest { s with inGroup := false } := by
  obtain ⟨q, b, hb, hs⟩ := h
  exact ⟨q, b, hb, ⟨hs.stands.reader, hs.stands.depth, hs.stands.limit, hF.symm⟩, hs.unread,
    hs.problems⟩

/-- Nothing but blanks of the line is ahead up to the end of the text. -/
def Seam.Over (S : Seam) (s t : State Nat) : Prop :=
  s.Rests S.first [] ∧ t.Rests S.second (';' :: S.behind)

namespace Grammar

variable {α β γ σ : Type} {S : Seam} {p l : List Char} {P : State Nat → State Nat → Prop}

/-! ## The judgement -/

/-- Both runs have the same result at the same place, or they have come apart as `E` tells, or there
is nothing more to compare. -/
def Judged (S : Seam) (E : α → α → State Nat → State Nat → Prop) (a b : α) (s t : State Nat) :
    Prop :=
  S.Moot s t ∨ (a = b ∧ ∃ q, S.Beside q [] s t) ∨ E a b s t

/-- From states with `P`, the two runs come out as `Judged` says. -/
def Apart (S : Seam) (P : State Nat → State Nat → Prop) (g₁ g₂ : Grammar Nat α)
    (E : α → α → State Nat → State Nat → Prop) : Prop :=
  ∀ s t, P s t → Judged S E (g₁ s).1 (g₂ t).1 (g₁ s).2 (g₂ t).2

/-- The same part of the grammar in both runs. -/
def Abreast (S : Seam) (P : State Nat → State Nat → Prop) (g : Grammar Nat α)
    (E : α → α → State Nat → State Nat → Prop) : Prop :=
  Apart S P g g E

/-- The runs do not come apart. -/
def Nowhere (_ _ : α) (_ _ : State Nat) : Prop := False

/-- Only what the first run does is known. -/
def Strays (X : α → State Nat → Prop) (a _ : α) (s _ : State Nat) : Prop := X a s

/-- Both runs have come to the end of the text's last line, and the second may have gone over blanks
in front of the semicolon. The results are the same up to `m`. -/
def Landed (S : Seam) (m : α → γ) (a b : α) (s t : State Nat) : Prop :=
  m a = m b ∧ S.Over s t

variable {E : β → β → State Nat → State Nat → Prop}

namespace Judged

variable {g : Grammar Nat β} {b : β} {s t : State Nat} {R : State Nat → Prop}

theorem apart {a : β} (h : E a b s t) : Judged S E a b s t :=
  .inr (.inr h)

/-- What the first run does is enough to know. -/
theorem strays {X : β → State Nat → Prop} (h : Ensures R g (S.pairing.Astray X)) (hs : R s)
    (hX : ∀ a s, X a s → E a b s t) : Judged S E (g s).1 b (g s).2 t := by
  rcases h s hs with ⟨x, hx, -⟩ | ⟨-, hX'⟩
  · exact .inl (.inl (List.ne_nil_of_mem hx))
  · exact .apart (hX _ _ hX')

/-- The first run notices a problem. -/
theorem moot (h : Ensures R g (S.pairing.Astray Never)) (hs : R s) :
    Judged S E (g s).1 b (g s).2 t :=
  .strays h hs fun _ _ h => h.elim

end Judged

namespace Apart

theorem weaken {g₁ g₂ : Grammar Nat β} {E' : β → β → State Nat → State Nat → Prop}
    (h : Apart S P g₁ g₂ E') (hE : ∀ a b s t, E' a b s t → E a b s t) : Apart S P g₁ g₂ E :=
  fun s t hs => (h s t hs).imp_right fun h => h.imp_right (hE _ _ _ _)

theorem pure {a b : β} (h : ∀ s t, P s t → E a b s t) :
    Apart S P (Pure.pure a) (Pure.pure b) E :=
  fun s t hs => .apart (h s t hs)

theorem bind {g₁ g₂ : Grammar Nat α} {f₁ f₂ : α → Grammar Nat β}
    {E' : α → α → State Nat → State Nat → Prop} (hg : Apart S P g₁ g₂ E')
    (hstray : ∀ a b, Apart S (E' a b) (f₁ a) (f₂ b) E)
    (hf : ∀ a q, Apart S (S.Beside q []) (f₁ a) (f₂ a) E) :
    Apart S P (g₁ >>= f₁) (g₂ >>= f₂) E := by
  intro s t hs
  rcases hg s t hs with hmoot | ⟨hsame, q, hbeside⟩ | hE
  · exact .inl (hmoot.mono _ _)
  · rw [bind_apply, bind_apply, ← hsame]
    exact hf _ q _ _ hbeside
  · exact hstray _ _ _ _ hE

/-- What the first run does is enough to know. -/
theorem strays {g k : Grammar Nat β} {R : State Nat → Prop} {X : β → State Nat → Prop}
    (h : Ensures R g (S.pairing.Astray X)) (hR : ∀ s t, P s t → R s)
    (hX : ∀ a b s t, X a s → E a b s t) : Apart S P g k E :=
  fun s t hs => .strays h (hR s t hs) fun _ _ => hX _ _ _ _

/-- The first run notices a problem. -/
theorem moot {g k : Grammar Nat β} {R : State Nat → Prop}
    (h : Ensures R g (S.pairing.Astray Never)) (hR : ∀ s t, P s t → R s) : Apart S P g k E :=
  fun s t hs => .moot h (hR s t hs)

/-- The first run notices a problem wherever it stands. -/
theorem noticed {g k : Grammar Nat β}
    (h : Ensures (fun _ => True) g (S.pairing.Astray Never)) : Apart S P g k E :=
  .moot h fun _ _ _ => trivial

/-- The second run slips. -/
theorem slipped {g₁ g₂ : Grammar Nat β}
    (h : ∀ s t, P s t → ∃ x ∈ (g₂ t).2.problems, S.Slip x.cause) : Apart S P g₁ g₂ E :=
  fun s t hs => .inl (.inr (h s t hs))

theorem nowhere {a b : α} {g₁ g₂ : Grammar Nat β} : Apart S (Nowhere a b) g₁ g₂ E :=
  fun _ _ h => h.elim

/-- The second run gives up its lookahead and then does what the first does. -/
theorem aside {g : Grammar Nat β} (h : Abreast S (S.Beside p []) g E) :
    Apart S (S.Aside p l) g (Grammar.retreat >>= fun _ => g) E :=
  fun s _ hs => h s _
    ⟨hs.first.stands, hs.second.stands.setReader hs.second.stands.reader.retreat,
      hs.first.problems, hs.second.problems⟩

end Apart

namespace Abreast

theorem weaken {g : Grammar Nat β} {E' : β → β → State Nat → State Nat → Prop}
    (h : Abreast S P g E') (hE : ∀ a b s t, E' a b s t → E a b s t) : Abreast S P g E :=
  Apart.weaken h hE

/-- A part of the grammar in which the runs do not come apart. -/
theorem tail {g : Grammar Nat β} (h : Abreast S P g Nowhere) : Abreast S P g E :=
  h.weaken fun _ _ _ _ h => h.elim

/-- A result where nothing is looked at. -/
theorem done {a : β} : Abreast S (S.Beside p []) (Pure.pure a) E :=
  fun _ _ hs => .inr (.inl ⟨rfl, p, hs⟩)

/-- A step that comes last. -/
theorem last {g : Grammar Nat β} (h : Abreast S P (g >>= Pure.pure) E) : Abreast S P g E := h

theorem ite {c : Prop} [Decidable c] {g g' : Grammar Nat β} (h : c → Abreast S P g E)
    (h' : ¬c → Abreast S P g' E) : Abreast S P (if c then g else g') E := by
  split
  · exact h ‹c›
  · exact h' ‹¬c›

/-- The runs do not come further than the text. -/
theorem bounded {g : Grammar Nat β}
    (h : p.length + l.length ≤ S.first.text.length → Abreast S (S.Beside p l) g E) :
    Abreast S (S.Beside p l) g E :=
  fun s t hs => h hs.length_le s t hs

/-- A part of the grammar that something follows; `hstray` tells what is done behind it where the
runs have come apart. -/
theorem callStray {g : Grammar Nat α} {f : α → Grammar Nat β}
    {E' : α → α → State Nat → State Nat → Prop} (hg : Abreast S P g E')
    (hstray : ∀ a b, Apart S (E' a b) (f a) (f b) E)
    (hf : ∀ a q, Abreast S (S.Beside q []) (f a) E) : Abreast S P (g >>= f) E :=
  Apart.bind hg hstray hf

/-- A part of the grammar that something follows. -/
theorem call {g : Grammar Nat α} {f : α → Grammar Nat β} (hg : Abreast S P g Nowhere)
    (hf : ∀ a q, Abreast S (S.Beside q []) (f a) E) : Abreast S P (g >>= f) E :=
  .callStray hg (fun _ _ => .nowhere) hf

/-- A part of the grammar of which the logic for one run says how each of the runs goes on. -/
theorem callReads {g : Grammar Nat α} {f : α → Grammar Nat β}
    {E' : α → α → State Nat → State Nat → Prop} {n : Nat} {R₁ R₂ : α → Nat → Prop}
    (hg : Abreast S (S.Beside p l) g E')
    (hreads₁ : Ensures (State.At S.first p l) g (Onward S.first n R₁))
    (hreads₂ : Ensures (State.At S.second p l) g (Onward S.second n R₂))
    (hstray : ∀ a b, Apart S (E' a b) (f a) (f b) E)
    (hf : ∀ a q, n ≤ q.length → R₁ a q.length → R₂ a q.length →
      Abreast S (S.Beside q []) (f a) E) :
    Abreast S (S.Beside p l) (g >>= f) E := by
  intro s t hs
  rcases hg s t hs with hmoot | ⟨hsame, q, hbeside⟩ | hE
  · exact .inl (hmoot.mono _ _)
  · obtain ⟨q₁, hq, hat₁, hR₁⟩ := hreads₁ s hs.first
    obtain ⟨q₂, -, hat₂, hR₂⟩ := hreads₂ t hs.second
    obtain rfl : q₁ = q := hat₁.reader.past.symm.trans hbeside.first.reader.past
    obtain rfl : q₂ = q₁ := hat₂.reader.past.symm.trans hbeside.second.reader.past
    rw [bind_apply, bind_apply, ← hsame]
    rw [← hsame] at hR₂
    exact hf _ q₂ hq hR₁ hR₂ _ _ hbeside
  · exact hstray _ _ _ _ hE

end Abreast

end Grammar

end Diagram
