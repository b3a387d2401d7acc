import Diagram.Diagnostic.Cause
import Diagram.Reader
import Diagram.Tree.Basic

/-!
The state that the grammar works on, and the steps it is made of. Nodes are marked with the span of
places they were read from. Problems are noted and reading goes on.

The grammar does not depend on how places are measured: it moves forward with the reader, and it
steps back over characters that it knows to stand there.
-/
namespace Diagram

/-- The stretch between two places. -/
structure Span (π : Type) where
  start : π
  stop : π
  deriving DecidableEq, Repr

/-- Where a problem starts. -/
inductive Onset (π : Type) where
  | place (p : π)
  /-- One colon's width before a place. -/
  | colonBefore (p : π)
  deriving DecidableEq, Repr

/-- The place that a problem starts at. -/
def Onset.resolve {π : Type} (meter : Meter π) : Onset π → π
  | .place p => p
  | .colonBefore p => meter.before p ':'

/-- Something wrong with the text from an onset up to a place. -/
structure Problem (π : Type) where
  cause : Cause
  start : Onset π
  stop : π
  deriving DecidableEq, Repr

/-- A container that was skipped because it is nested too deep. -/
structure Skip (π : Type) where
  /-- The number of containers and blocks around it. -/
  depth : Nat
  start : π
  /-- The source had failed before. -/
  afterFailure : Bool
  deriving DecidableEq, Repr

structure State (π : Type) where
  reader : Reader π
  /-- The problems found, latest first. -/
  problems : List (Problem π)
  /-- The containers skipped, latest first. -/
  skips : List (Skip π)
  /-- The number of containers and blocks around the place that is read. -/
  depth : Nat
  /-- The number of containers that may be inside each other. -/
  limit : Nat
  /-- The place that is read is between the parentheses of an edge group. -/
  inGroup : Bool

/-- Before anything is read. -/
def State.ofSource {π : Type} (meter : Meter π) (source : List Delivery) (limit : Nat) : State π :=
  ⟨.ofSource meter source, [], [], 0, limit, false⟩

/-- A part of the grammar: reads something and changes the state. What has been found to be wrong
with the text stays wrong with it. -/
structure Grammar (π α : Type) where
  run : State π → α × State π
  grows : ∀ s, s.problems <:+ (run s).2.problems

namespace Grammar

variable {π α σ : Type}

instance : CoeFun (Grammar π α) fun _ => State π → α × State π := ⟨run⟩

theorem ext {g g' : Grammar π α} (h : ∀ s, g s = g' s) : g = g' := by
  obtain ⟨run, grows⟩ := g
  obtain rfl := funext h
  rfl

instance : Monad (Grammar π) where
  pure a := ⟨fun s => (a, s), fun _ => List.suffix_refl _⟩
  bind g f := ⟨fun s => f (g s).1 (g s).2, fun s => (g.grows s).trans ((f _).grows _)⟩

instance : LawfulMonad (Grammar π) :=
  .mk' _ (fun _ => rfl) (fun _ _ => rfl) (fun _ _ _ => rfl)

/-- A step that neither gives anything back nor touches the problems. -/
def changing (step : State π → State π) (h : ∀ s, (step s).problems = s.problems := by simp) :
    Grammar π Unit :=
  ⟨fun s => ((), step s), fun s => h s ▸ List.suffix_refl _⟩

/-- A question about the state. -/
def asking (question : State π → α) : Grammar π α :=
  ⟨fun s => (question s, s), fun _ => List.suffix_refl _⟩

@[simp] theorem asking_apply (question : State π → α) (s : State π) :
    asking question s = (question s, s) := rfl

/-- Notes a problem. -/
def noticing (problem : Problem π) : Grammar π Unit :=
  ⟨fun s => ((), { s with problems := problem :: s.problems }), fun _ => List.suffix_cons _ _⟩

/-! ## Reading -/

/-- A step of the reader. -/
def reading (step : Reader π → α × Reader π) : Grammar π α :=
  ⟨fun s => ((step s.reader).1, { s with reader := (step s.reader).2 }),
    fun _ => List.suffix_refl _⟩

@[simp] theorem reading_apply (step : Reader π → α × Reader π) (s : State π) :
    reading step s = ((step s.reader).1, { s with reader := (step s.reader).2 }) := rfl

/-- A step of the reader that gives nothing back. -/
def adjusting (step : Reader π → Reader π) : Grammar π Unit :=
  changing fun s => { s with reader := step s.reader }

def read : Grammar π (Option Char) := reading Reader.read
def readVisible : Grammar π (Option Char) := reading Reader.readVisible
def peek : Grammar π (Option Char) := reading Reader.peek
def peekMany (n : Nat) : Grammar π (Option (List Char)) := reading (Reader.peekMany n)
def peekVisible : Grammar π (Option (Char × Nat)) := reading Reader.peekVisible
def accept : Grammar π Unit := adjusting Reader.accept
def retreat : Grammar π Unit := adjusting Reader.retreat
def putBack (c : Char) : Grammar π Unit := adjusting (Reader.putBack c)
def note (breach : Breach) : Grammar π Unit := adjusting (Reader.note breach)

/-- An upper bound for the characters not consumed yet. -/
def left : Grammar π Nat := asking (·.reader.left)

/-- Does something if a condition holds. -/
def whenever (condition : Bool) (body : Grammar π Unit) : Grammar π Unit :=
  if condition then body else pure ()

/-- Consumes the characters if the text goes on with them. -/
def acceptExactly (cs : List Char) : Grammar π Bool := do
  match ← peekMany cs.length with
  | none => pure false
  | some seen =>
    if seen = cs then do
      accept
      pure true
    else do
      retreat
      pure false

/-- Looks at the next visible character if it is on the same line. -/
def peekOnLine : Grammar π (Option Char) := do
  match ← peekVisible with
  | none => pure none
  | some (c, newlines) =>
    if newlines = 0 then pure (some c)
    else do
      retreat
      pure none

/-! ## Places -/

/-- The place behind what has been consumed. -/
def here : Grammar π π := asking (·.reader.place)

/-- The place behind what has been looked at. -/
def lookedPlace : Grammar π π := asking (·.reader.lookedPlace)

/-- The place behind what has been delivered. -/
def reach : Grammar π π := asking (·.reader.reach)

/-- The place in front of `c`, from the place behind it. -/
def before (p : π) (c : Char) : Grammar π π :=
  reading fun r => (r.meter.before p c, r.checkStepBack c)

/-- Steps back over some characters, one after the other. -/
def beforeAll (p : π) : List Char → Grammar π π
  | [] => pure p
  | c :: cs => do beforeAll (← before p c) cs

/-- The place in front of `c`, which has been consumed last. -/
def placeOf (c : Char) : Grammar π π := do
  before (← here) c

/-! ## Problems, depth and groups -/

/-- Notes a problem from one place to another. -/
def report (cause : Cause) (start stop : π) : Grammar π Unit :=
  noticing ⟨cause, .place start, stop⟩

/-- Notes a problem that starts one colon before the place it stops at. -/
def reportAtColon (cause : Cause) (stop : π) : Grammar π Unit :=
  noticing ⟨cause, .colonBefore stop, stop⟩

/-- Notes a problem up to the last character consumed. -/
def reportToHere (cause : Cause) (start : π) : Grammar π Unit := do
  report cause start (← here)

/-- Notes a problem up to the last character delivered. -/
def reportToReach (cause : Cause) (start : π) : Grammar π Unit := do
  report cause start (← reach)

/-- Notes that the container that starts at a place is skipped. -/
def noteSkip (start : π) : Grammar π Unit :=
  changing fun s => { s with skips := ⟨s.depth, start, s.reader.failure.isSome⟩ :: s.skips }

/-- The number of containers and blocks around the place that is read. -/
def depth : Grammar π Nat := asking State.depth

/-- The number of containers that may be inside each other. -/
def limit : Grammar π Nat := asking State.limit

/-- No further container may be entered. -/
def atLimit : Grammar π Bool := asking fun s => decide (s.limit ≤ s.depth)

/-- The place that is read is between the parentheses of an edge group. -/
def inGroup : Grammar π Bool := asking State.inGroup

/-- Enters a level. -/
def descend : Grammar π Unit :=
  changing fun s => { s with depth := s.depth + 1 }

/-- Leaves a level. -/
def ascend : Grammar π Unit := do
  whenever ((← depth) = 0) (note .depthUnderflow)
  changing fun s => { s with depth := s.depth - 1 }

/-- Reads something one level deeper. -/
def nested (body : Grammar π α) : Grammar π α := do
  descend
  let a ← body
  ascend
  pure a

/-- Enters or leaves the parentheses of an edge group. -/
def setGroup (inGroup : Bool) : Grammar π Unit :=
  changing fun s => { s with inGroup }

/-- Notes a breach inside the parentheses of an edge group. -/
def outsideGroup : Grammar π Unit := do
  whenever (← inGroup) (note .valueInGroup)

/-! ## Repetition -/

/-- How a repetition goes on from what it has gathered. -/
inductive Next (σ : Type) where
  | again (gathered : σ)
  | stop (gathered : σ)

/-- Repeats a step at most `n` times. A step that wants to be repeated has to consume something. -/
def repeatWithin (step : σ → Grammar π (Next σ)) : Nat → σ → Grammar π σ
  | 0, gathered => do
    note .noProgress
    pure gathered
  | n + 1, gathered => do
    let before ← left
    match ← step gathered with
    | .stop gathered => pure gathered
    | .again gathered => do
      if (← left) < before then repeatWithin step n gathered
      else do
        note .noProgress
        pure gathered

/-- Repeats a step until it stops. -/
def repeating (step : σ → Grammar π (Next σ)) (gathered : σ) : Grammar π σ := do
  repeatWithin step ((← left) + 1) gathered

end Grammar

end Diagram
