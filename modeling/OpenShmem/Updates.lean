import OpenShmem.Construct
import OpenShmem.Rma

/-! The puts of the remote-memory methods, as updates of the elements of an array:
what a put does to memory is what its update does to the elements there. -/
namespace OpenShmem

open Overlay

variable {P : Nat} {T : Type} [Pod T]

/-- The elements of an array on every PE. -/
def Shbox.elementsOn (shbox : Shbox T) (mem : Fin P → Nat → UInt8) (q : Fin P) (i : Nat) : T :=
  element T (mem q) shbox.addr i

/-- An element whose bytes a write does not cover. -/
theorem elementsOn_uncovered {shbox : Shbox T} (put : Write (Fin P) UInt8)
    (mem : Fin P → Nat → UInt8) {q : Fin P} {i : Nat}
    (free : ∀ x < Pod.size T, ¬ put.Covers q (shbox.addr + i * Pod.size T + x)) :
    shbox.elementsOn (put.apply mem) q i = shbox.elementsOn mem q i :=
  element_congr fun x hx => put.apply_uncovered mem (free x hx)

/-- A put of all of `data` from element `start` on. -/
theorem put_updates (shbox : Shbox T) (data : Slice T) (garbage : Nat → UInt8) (start : Usize)
    (pe : Fin P) (mem : Fin P → Nat → UInt8) :
    shbox.elementsOn ((⟨pe, shbox.offset start,
        window (data.memory garbage) 0 (data.elems.length * Pod.size T)⟩ :
          Write (Fin P) UInt8).apply mem) =
      (Update.finish start.toNat data.elems pe).apply (shbox.elementsOn mem) := by
  funext q i
  by_cases touched : pe = q ∧ start.toNat ≤ i
  · obtain ⟨rfl, low⟩ := touched
    obtain ⟨j, rfl⟩ := Nat.exists_eq_add_of_le low
    rw [Shbox.elementsOn, Write.apply, Function.update_self, Shbox.offset]
    cases stored : data.elems[j]? with
    | some t =>
      have inside := (List.getElem?_eq_some_iff.mp stored).1
      rw [element_put_inside _ _ _ _ _ inside, data.memory_element garbage stored]
      simp [Update.apply, Update.action, Update.finish, stored]
    | none =>
      have after := List.getElem?_eq_none_iff.mp stored
      rw [element_put_after _ _ _ _ _ after]
      simp [Update.apply, Update.action, Update.finish, stored, Shbox.elementsOn]
  · have untouched : (Update.finish start.toNat data.elems pe).apply (shbox.elementsOn mem) q i =
        shbox.elementsOn mem q i := by
      rw [Update.apply, Update.action, Update.finish, if_neg touched]
    rw [untouched]
    apply elementsOn_uncovered
    rintro x hx ⟨target, low, _⟩
    have before : i < start.toNat := by
      by_contra later
      exact touched ⟨target, Nat.le_of_not_lt later⟩
    have := RowMajor.index_lt before hx
    simp only [Shbox.offset] at low
    omega

theorem writeFrom_updates (build : Build) (self : PEReference P) (shbox : Shbox T) (data : Slice T)
    (w : World P) (room : data.elems.length ≤ shbox.len.toNat) :
    ∃ next put, (self.writeFrom build shbox data).run w = .ok () next ∧
      next.puts = w.puts ++ [put] ∧ ∀ mem, shbox.elementsOn (put.apply mem) =
        (Update.writeFrom data.elems self.target).apply (shbox.elementsOn mem) := by
  refine ⟨_, _, PEReference.writeFrom_resolved self room, rfl, ?_⟩
  exact put_updates shbox data w.garbage 0 self.target

/-- A view whose range comes out the same against its own buffer. -/
theorem finish_updates {build : Build} {view : MutableArrayView P T} {start : Usize} (w : World P)
    (again : resolve build view.range view.buf.len = .ok (start, view.buf.len)) :
    ∃ next put, (view.finish build).run w = .ok () next ∧
      next.puts = w.puts ++ [put] ∧ ∀ mem, view.into.elementsOn (put.apply mem) =
        (Update.finish start.toNat view.buf.elems view.on).apply (view.into.elementsOn mem) := by
  refine ⟨_, _, MutableArrayView.drop_resolved again, rfl, ?_⟩
  rw [Slice.len_toNat]
  exact put_updates view.into view.buf w.garbage start view.on

end OpenShmem
