import Diagram.Json.Basic

/-!
Reading JSON values, for trees of any kind: the members of an object that was just written, elements
that are all read back, and what holds of everything that a reader gives.
-/
namespace Diagram

variable {α β : Type}

/-! ## What has been written -/

namespace Json

/-- What is enough for a variant is one more than enough for what it carries. -/
theorem fuel_of_variant {name : String} {j : Json} {fuel : Nat}
    (h : (variant name j).depth ≤ fuel) : ∃ n, fuel = n + 1 ∧ j.depth ≤ n := by
  simp only [variant, depth, depthOfMembers] at h
  exact ⟨fuel - 1, by omega, by omega⟩

/-- What is enough for an object is one more than enough for its members. -/
theorem fuel_of_object {members : List (String × Json)} {fuel : Nat}
    (h : (object members).depth ≤ fuel) : ∃ n, fuel = n + 1 ∧ depthOfMembers members ≤ n := by
  rw [depth] at h
  exact ⟨fuel - 1, by omega, by omega⟩

@[simp] theorem variant?_variant (name : String) (j : Json) :
    (variant name j).variant? = some (name, some j) := rfl

theorem lookup_append (name : String) (xs ys : List (String × Json)) :
    lookup name (xs ++ ys) = (lookup name xs).or (lookup name ys) := by
  induction xs with
  | nil => rfl
  | cons x xs ih =>
    obtain ⟨n, j⟩ := x
    by_cases h : n = name <;> simp [lookup, h, ih]

theorem lookup_member? (name other : String) (write : α → Json) (x : Option α) :
    lookup name (member? other write x) = if other = name then x.map write else none := by
  cases x <;> simp [member?, lookup]

@[simp] theorem depthOfMembers_append (xs ys : List (String × Json)) :
    depthOfMembers (xs ++ ys) = max (depthOfMembers xs) (depthOfMembers ys) := by
  induction xs with
  | nil => simp [depthOfMembers]
  | cons x xs ih => simp [depthOfMembers, ih, Nat.max_assoc]

theorem optional?_of_ne_null {j : Json} (h : j ≠ .null) (read : Json → Option α) :
    optional? read (some j) = (read j).map some := by
  cases j <;> first | rfl | exact absurd rfl h

/-- A part that may be missing is read back if it is not written as null. -/
theorem optional?_map {read : Json → Option α} {write : α → Json} {x : Option α}
    (hnull : ∀ a ∈ x, write a ≠ .null) (hread : ∀ a ∈ x, read (write a) = some a) :
    optional? read (x.map write) = some x := by
  cases x with
  | none => rfl
  | some a =>
    rw [Option.map_some, optional?_of_ne_null (hnull a rfl), hread a rfl, Option.map_some]

/-- The same where a missing part is written as null. -/
theorem optional?_nullable {read : Json → Option α} {write : α → Json} {x : Option α}
    (hnull : ∀ a ∈ x, write a ≠ .null) (hread : ∀ a ∈ x, read (write a) = some a) :
    optional? read (some (nullable write x)) = some x := by
  cases x with
  | none => rfl
  | some a => exact optional?_map hnull hread

end Json

/-- Elements that are each read back are read back together. -/
theorem mapM_map_eq_some {read : β → Option α} {write : α → β} {xs : List α}
    (h : ∀ a ∈ xs, read (write a) = some a) : (xs.map write).mapM read = some xs := by
  induction xs with
  | nil => rfl
  | cons x xs ih =>
    rw [List.map_cons, List.mapM_cons, h x List.mem_cons_self,
      ih fun a ha => h a (List.mem_cons_of_mem x ha)]
    rfl

/-! ## What a reader gives -/

/-- Everything that comes out of `x` satisfies `P`. -/
def Yields (x : Option α) (P : α → Prop) : Prop :=
  ∀ a ∈ x, P a

namespace Yields

variable {P : α → Prop} {Q : β → Prop}

theorem none : Yields (none : Option α) P :=
  fun _ h => nomatch h

theorem some {a : α} (h : P a) : Yields (some a) P :=
  fun _ ha => Option.some.inj ha ▸ h

theorem pure {a : α} (h : P a) : Yields (pure a) P :=
  some h

theorem any (x : Option α) : Yields x fun _ => True :=
  fun _ _ => trivial

theorem bind {x : Option β} {f : β → Option α} (hx : Yields x Q)
    (hf : ∀ b, Q b → Yields (f b) P) : Yields (x >>= f) P := by
  intro a ha
  obtain ⟨b, hb, hab⟩ := Option.bind_eq_some_iff.mp ha
  exact hf b (hx b hb) a hab

/-- What comes first says nothing about the result. -/
theorem skip {x : Option β} {f : β → Option α} (hf : ∀ b, Yields (f b) P) : Yields (x >>= f) P :=
  bind (any x) fun b _ => hf b

theorem map {x : Option α} (hx : Yields x P) :
    Yields (x.map Option.some) fun y => ∀ a ∈ y, P a := by
  intro y hy
  obtain ⟨a, ha, rfl⟩ := Option.map_eq_some_iff.mp hy
  exact some (hx a ha)

theorem mapM {read : β → Option α} (h : ∀ b, Yields (read b) P) (xs : List β) :
    Yields (xs.mapM read) fun as => ∀ a ∈ as, P a := by
  induction xs with
  | nil => exact pure (by simp)
  | cons x xs ih =>
    rw [List.mapM_cons]
    refine bind (h x) fun a ha => bind ih fun as has => pure ?_
    simpa [ha] using has

theorem optional? {read : Json → Option α} (h : ∀ j, Yields (read j) P) (j : Option Json) :
    Yields (Json.optional? read j) fun x => ∀ a ∈ x, P a := by
  cases j with
  | none => exact some fun _ h => nomatch h
  | some j =>
    by_cases hj : j = .null
    · rw [hj]
      exact some fun _ h => nomatch h
    · rw [Json.optional?_of_ne_null hj]
      exact (h j).map

theorem default? {missing : α} {read : Json → Option α} (hmissing : P missing)
    (h : ∀ j, Yields (read j) P) (j : Option Json) : Yields (Json.default? missing read j) P := by
  cases j with
  | none => exact some hmissing
  | some j => exact h j

end Yields

end Diagram
