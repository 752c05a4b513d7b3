import Mathlib.Logic.Function.Basic

/-! Heaps as the blocks which are live in them, each with its cells and at the address
of the first one: allocating at a free place and releasing keep the blocks apart. -/

universe u

abbrev Blocks (β : Type u) := Nat → Option (List β)

namespace Blocks

variable {β : Type u} {blocks : Blocks β} {p q n : Nat} {cells : List β}

/-- `n` cells from `p` on and `m` cells from `q` on have none in common. -/
def Apart (p n q m : Nat) : Prop := p + n ≤ q ∨ q + m ≤ p

theorem Apart.symm {m : Nat} (apart : Apart p n q m) : Apart q m p n := Or.symm apart

def Separate (blocks : Blocks β) : Prop :=
  ∀ p q a b, p ≠ q → blocks p = some a → blocks q = some b → Apart p a.length q b.length

/-- No live block reaches into the `n` cells from `p` on. -/
def Free (blocks : Blocks β) (p n : Nat) : Prop :=
  ∀ q cells, blocks q = some cells → Apart p n q cells.length

def empty : Blocks β := fun _ => none

def allocate (blocks : Blocks β) (p : Nat) (cells : List β) : Blocks β :=
  Function.update blocks p (some cells)

def release (blocks : Blocks β) (p : Nat) : Blocks β := Function.update blocks p none

@[simp] theorem allocate_self : blocks.allocate p cells p = some cells := Function.update_self ..

@[simp] theorem release_self : blocks.release p p = none := Function.update_self ..

theorem allocate_other (different : q ≠ p) : blocks.allocate p cells q = blocks q :=
  Function.update_of_ne different ..

theorem release_other (different : q ≠ p) : blocks.release p q = blocks q :=
  Function.update_of_ne different ..

theorem live_of_release (live : blocks.release p q = some cells) : blocks q = some cells := by
  by_cases gone : q = p
  · rw [gone, release_self] at live
    cases live
  · rwa [release_other gone] at live

theorem live_of_allocate {cells' : List β} (live : blocks.allocate p cells q = some cells') :
    (q = p ∧ cells' = cells) ∨ (q ≠ p ∧ blocks q = some cells') := by
  by_cases new : q = p
  · subst new
    rw [allocate_self, Option.some.injEq] at live
    exact .inl ⟨rfl, live.symm⟩
  · rw [allocate_other new] at live
    exact .inr ⟨new, live⟩

theorem free_empty : Free (empty : Blocks β) p n := by
  intro q cells live
  cases live

theorem separate_empty : Separate (empty : Blocks β) := by
  intro p q a b _ live
  cases live

theorem Separate.allocate (separate : blocks.Separate) (free : blocks.Free p cells.length) :
    (blocks.allocate p cells).Separate := by
  intro q r a b different first second
  rcases live_of_allocate first with ⟨rfl, rfl⟩ | ⟨_, older⟩
  · rcases live_of_allocate second with ⟨rfl, _⟩ | ⟨_, older'⟩
    · exact absurd rfl different
    · exact free r b older'
  · rcases live_of_allocate second with ⟨rfl, rfl⟩ | ⟨_, older'⟩
    · exact (free q a older).symm
    · exact separate q r a b different older older'

theorem Separate.release (separate : blocks.Separate) (p : Nat) : (blocks.release p).Separate := by
  intro q r a b different first second
  exact separate q r a b different (live_of_release first) (live_of_release second)

end Blocks
