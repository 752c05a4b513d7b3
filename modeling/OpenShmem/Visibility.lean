import OpenShmem.MutableViews

/-! Reads which follow a write at once, while the network may still hold the put. -/
namespace OpenShmem

open Overlay

variable {P : Nat} {T : Type} [Pod T]

/-- The two ways of replacing the first `data.len()` elements of a remote array. -/
inductive Push where
  | writeFrom
  | finish

/-- A finished view is opened on `0..data.len()` and stored through at every index. -/
def Push.run (build : Build) (self : PEReference P) (shbox : Shbox T) (data : Slice T) :
    Push → Shmem P Unit
  | .writeFrom => self.writeFrom build shbox data
  | .finish => do
    let view ← self.write build shbox (.span 0 data.len)
    (view.assign (data.elems[·]?)).finish build

/-- The network delivers what it likes, in the order it likes. -/
def deliver (order : List Nat) : Shmem P Unit := ⟨fun w =>
  .ok () (order.foldl World.deliverPut w)⟩

/-- After `push` returns, a read of `a..b` returns `data[a..b]`, whatever the network
delivers in between. -/
def Visible (build : Build) (self : PEReference P) (shbox : Shbox T) (data : Slice T) (push : Push)
    (a b : Usize) (w : World P) : Prop :=
  ∀ order, ∃ s : Slice T, ∃ next, (do
    push.run build self shbox data
    deliver order
    self.read build shbox (.span a b)).run w = .ok s next ∧
      s.elems = (data.elems.drop a.toNat).take (b.toNat - a.toNat)

/-- The elements `a..b` on the target are those of `data` before the write, and no
put in flight would change them. -/
def AlreadyThere (self : PEReference P) (shbox : Shbox T) (data : Slice T) (a b : Usize)
    (w : World P) : Prop :=
  let wanted := (data.elems.drop a.toNat).take (b.toNat - a.toNat)
  elements T (w.mem self.target) (shbox.offset a) (b.toNat - a.toNat) = wanted ∧
  ∀ put ∈ w.puts, elements T (put.apply w.mem self.target) (shbox.offset a) (b.toNat - a.toNat) =
    wanted

theorem memory_elements (data : Slice T) (behind : Nat → UInt8) {a b : Nat} (ordered : a ≤ b)
    (inside : b ≤ data.elems.length) :
    elements T (data.memory behind) (a * Pod.size T) (b - a) = (data.elems.drop a).take (b - a) := by
  have sub := elements_sub (T := T) (data.memory behind) 0 a (b - a) data.elems.length (by omega)
  rwa [Slice.memory, elements_overlay, Nat.zero_add] at sub

section

variable {build : Build} {self : PEReference P} {shbox : Shbox T} {data : Slice T} {a b : Usize}
  {w : World P}

theorem assign_all (data : Slice T) {buf : Slice T} (length : buf.elems.length = data.elems.length) :
    buf.assign (data.elems[·]?) = data := by
  apply Slice.ext
  apply List.ext_getElem
  · simpa using length
  · intro i h h'
    simp [Slice.assign, h']

/-- Both ways of writing come to the same put. -/
theorem push_sends (build : Build) (self : PEReference P) (push : Push) (positive : 0 < data.elems.length)
    (room : data.elems.length ≤ shbox.len.toNat) :
    (push.run build self shbox data).run w =
      .ok () (w.sent shbox 0 data (data.elems.length * Pod.size T) self.target) := by
  cases push with
  | writeFrom => exact PEReference.writeFrom_resolved self room
  | finish =>
    have bounded : (RangeBounds.span 0 data.len).endBound ≠ .unbounded := by simp [RangeBounds.span]
    obtain ⟨size, opened, whole⟩ : ∃ size : Usize,
        resolve build (.span 0 data.len) shbox.len = .ok (0, size) ∧
          size.toNat = data.elems.length := by
      simpa using resolve_span build (show (0 : Usize).toNat < data.len.toNat by simpa using positive)
        (show data.len.toNat ≤ shbox.len.toNat by simpa using room)
    have hi : (RangeBounds.span 0 data.len).hi shbox.len.toNat = data.elems.length := data.len_toNat
    have last : (RangeBounds.span 0 data.len).endBound.last build shbox.len.toNat =
        data.elems.length - 1 := by
      rw [Bound.last_of_pos build bounded (Nat.lt_of_lt_of_eq positive hi.symm)]
      exact congrArg (· - 1) hi
    have again := (reresolve_bounded opened bounded).mpr ⟨rfl, rfl, by omega⟩
    have fits : size.toNat * Pod.size T ≤ isizeMax :=
      Nat.le_trans (Nat.mul_le_mul_right _ (Nat.le_of_eq whole)) data.layout
    obtain ⟨buf, result, length, _⟩ := PEReference.write_resolved self (w := w) opened fits
    have full := assign_all data (length.trans whole)
    have sizeLen : data.len = size := Slice.len_eq whole.symm
    rw [Push.run, bind_ok result, MutableArrayView.assign, full, MutableArrayView.finish,
      MutableArrayView.drop_resolved (by rw [← sizeLen] at again; exact again), data.len_toNat]

theorem deliverPut_steady {region : Fin P → Nat → Prop} {spec : Fin P → Nat → UInt8}
    (steady : Steady region w.mem w.puts spec) (k : Nat) :
    Steady region (w.deliverPut k).mem (w.deliverPut k).puts spec := by
  unfold World.deliverPut
  cases chosen : w.puts[k]? with
  | none => exact steady
  | some put => exact steady.deliver chosen

theorem deliver_steady {region : Fin P → Nat → Prop} {spec : Fin P → Nat → UInt8}
    (steady : Steady region w.mem w.puts spec) (order : List Nat) :
    Steady region (order.foldl World.deliverPut w).mem (order.foldl World.deliverPut w).puts
      spec := by
  induction order generalizing w with
  | nil => exact steady
  | cons k rest ih => exact ih (deliverPut_steady steady k)

/-- A non-empty read of a valid span returns what the target holds at that moment. -/
theorem read_span (build : Build) (self : PEReference P) (shbox : Shbox T)
    (ordered : a.toNat < b.toNat) (inside : b.toNat ≤ shbox.len.toNat) :
    ∃ s : Slice T, ∃ next, (self.read build shbox (.span a b)).run w = .ok s next ∧
      s.elems = elements T (w.mem self.target) (shbox.offset a) (b.toNat - a.toNat) := by
  obtain ⟨size, opened, size_eq⟩ := resolve_span build ordered inside
  have fits : size.toNat * Pod.size T ≤ isizeMax :=
    Nat.le_trans (Nat.mul_le_mul_right _ (by omega)) shbox.layout
  obtain ⟨s, result, elems⟩ := PEReference.read_resolved self (w := w) opened fits
  exact ⟨s, _, result, by rw [elems, size_eq]⟩

/-- The bytes a read of `a..b` has to meet for it to return `data[a..b]`. -/
theorem elements_wanted_iff {m : Nat → UInt8} (ordered : a.toNat ≤ b.toNat)
    (inside : b.toNat ≤ data.elems.length) :
    elements T m (shbox.offset a) (b.toNat - a.toNat) =
        (data.elems.drop a.toNat).take (b.toNat - a.toNat) ↔
      ∀ x < (b.toNat - a.toNat) * Pod.size T,
        m (shbox.offset a + x) = data.memory (fun _ => 0) (a.toNat * Pod.size T + x) := by
  rw [← memory_elements data (fun _ => 0) ordered inside, elements_eq_iff]

/-- What is there already stays there, through the write's own put as well. -/
theorem steady_of_alreadyThere (ordered : a.toNat ≤ b.toNat) (inside : b.toNat ≤ data.elems.length)
    (already : AlreadyThere self shbox data a b w) :
    Steady (fun q x => q = self.target ∧
        ∃ y < (b.toNat - a.toNat) * Pod.size T, x = shbox.offset a + y)
      (w.sent shbox 0 data (data.elems.length * Pod.size T) self.target).mem
      (w.sent shbox 0 data (data.elems.length * Pod.size T) self.target).puts
      (fun _ x => data.memory (fun _ => 0) (x - shbox.addr)) := by
  have place (y : Nat) : shbox.offset a + y - shbox.addr = a.toNat * Pod.size T + y := by
    rw [Shbox.offset, Nat.add_assoc, Nat.add_sub_cancel_left]
  constructor
  · rintro q x ⟨rfl, y, hy, rfl⟩
    rw [place]
    exact (elements_wanted_iff ordered inside).mp already.1 y hy
  · rintro put member q x ⟨rfl, y, hy, rfl⟩
    by_cases covered : put.Covers self.target (shbox.offset a + y)
    · rw [put.apply_covered _ w.mem covered, place]
      rcases List.mem_append.mp member with older | newest
      · exact (elements_wanted_iff ordered inside).mp (already.2 put older) y hy
      · obtain rfl := List.mem_singleton.mp newest
        have byte : a.toNat * Pod.size T + y < data.elems.length * Pod.size T := by
          have := Nat.mul_le_mul_right (Pod.size T) inside
          rw [Nat.sub_mul] at hy
          omega
        have target : shbox.offset a + y = shbox.offset 0 + (a.toNat * Pod.size T + y) := by
          simp [Shbox.offset, Nat.add_assoc]
        rw [Write.apply, Function.update_self, target, overlay_inside _ _ _ (by simpa using byte),
          window_getElem, Nat.zero_add]
        exact data.memory_inside _ _ byte
    · exact put.apply_uncovered _ covered

/-- A write is visible as soon as it returns exactly where it changes nothing. -/
theorem visible_iff (build : Build) (self : PEReference P) (shbox : Shbox T) (data : Slice T)
    (push : Push) (a b : Usize) (w : World P) (room : data.elems.length ≤ shbox.len.toNat)
    (ordered : a.toNat < b.toNat) (inside : b.toNat ≤ data.elems.length) :
    Visible build self shbox data push a b w ↔ AlreadyThere self shbox data a b w := by
  have sends := push_sends (w := w) build self push (by omega) room
  have reads (order : List Nat) := read_span build self shbox
    (w := order.foldl World.deliverPut
      (w.sent shbox 0 data (data.elems.length * Pod.size T) self.target)) ordered (by omega)
  constructor
  · intro visible
    have shown (order : List Nat) : elements T ((order.foldl World.deliverPut
        (w.sent shbox 0 data (data.elems.length * Pod.size T) self.target)).mem self.target)
        (shbox.offset a) (b.toNat - a.toNat) =
          (data.elems.drop a.toNat).take (b.toNat - a.toNat) := by
      obtain ⟨s, next, result, wanted⟩ := visible order
      obtain ⟨s', next', result', elems⟩ := reads order
      rw [bind_ok sends, bind_ok rfl, result'] at result
      cases result
      rw [← elems, wanted]
    refine ⟨shown [], ?_⟩
    intro put member
    obtain ⟨k, chosen⟩ := List.mem_iff_getElem?.mp member
    have bound := (List.getElem?_eq_some_iff.mp chosen).1
    have delivered := shown [k]
    rw [List.foldl_cons, List.foldl_nil, World.deliverPut, World.sent,
      List.getElem?_append_left bound, chosen] at delivered
    exact delivered
  · intro already order
    obtain ⟨s, next, result, elems⟩ := reads order
    refine ⟨s, next, ?_, ?_⟩
    · rw [bind_ok sends, bind_ok rfl, result]
    · rw [elems, elements_wanted_iff (Nat.le_of_lt ordered) inside]
      intro x hx
      have steady := deliver_steady (steady_of_alreadyThere (Nat.le_of_lt ordered) inside already)
        order
      rw [steady.holds self.target _ ⟨rfl, x, hx, rfl⟩, Shbox.offset, Nat.add_assoc,
        Nat.add_sub_cancel_left]

/-- An array at 16 which has an 8 and a 9 behind its first element. A put to the element behind
these is on its way. -/
def eightNine : World 2 :=
  { World.blank 2 with
    mem := fun _ x => if x = 17 then 8 else if x = 18 then 9 else 3
    puts := [⟨Fin.last 1, 19, [5]⟩] }

/-- Of four elements which are written the two in the middle were there. -/
theorem visible_middle :
    Visible .release ⟨⟨1⟩, by decide⟩ ⟨16, 5, by decide⟩
      (⟨[7, 8, 9, 6], by decide, by decide⟩ : Slice UInt8) .finish 1 3 eightNine := by
  refine (visible_iff .release ⟨⟨1⟩, by decide⟩ ⟨16, 5, by decide⟩ ⟨[7, 8, 9, 6], by decide, by decide⟩
    .finish 1 3 eightNine (by decide) (by decide) (by decide)).mpr ⟨by decide, ?_⟩
  intro put member
  obtain rfl := List.mem_singleton.mp member
  decide

/-- A read right after `write_from` may still return the old byte. -/
theorem write_not_visible :
    ¬ Visible .release ⟨⟨1⟩, by decide⟩ ⟨16, 1, by decide⟩
      (⟨[7], by decide, by decide⟩ : Slice UInt8) .writeFrom 0 1 (World.blank 2) := by
  intro visible
  obtain ⟨s, next, result, wanted⟩ := visible []
  have returned : s.elems = [0] := by
    cases result
    rfl
  rw [returned] at wanted
  exact absurd wanted (by decide)

end

end OpenShmem
