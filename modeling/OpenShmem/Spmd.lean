import OpenShmem.PeNumbers
import OpenShmem.Phases
import OpenShmem.Updates

/-! Programs which every PE runs on one symmetric object: the collective constructor, the
stores of a PE to its own part, and puts and atomic operations on any, with barriers in
between. They have a meaning on elements and one on bytes, and the first is a view of the
second. -/
namespace OpenShmem

open Overlay

variable {P : Nat} {V : Type}

inductive Step (P : Nat) (V : Type) where
  /-- What the collective allocation does to the memory of `p`. -/
  | allocate (p : Fin P)
  /-- `shbox[i] = v` on `p` itself. -/
  | store (p : Fin P) (i : Nat) (v : V)
  | put (start : Nat) (data : List V) (pe : Fin P)
  | atomic (f : V → V) (pe : Fin P)

/-- What a PE does to its own memory is done at once. -/
def Step.travels : Step P V → Bool
  | .allocate _ | .store _ _ _ => false
  | .put _ _ _ | .atomic _ _ => true

def Step.update (c : Constructor P V) : Step P V → Update P V
  | .allocate p => ⟨p, 0, match c.zeroed with
    | some zero => List.replicate c.len fun _ => zero
    | none => []⟩
  | .store p i v => .finish i [v] p
  | .put start data pe => .finish start data pe
  | .atomic f pe => ⟨pe, 0, [f]⟩

/-- The first phase of a constructor: the allocation ends with a barrier of its own. -/
def allocation : Phases.Phase P (Step P V) := fun p => [.allocate p]

namespace Constructor

variable (c : Constructor P V)

def meaning : Phases.Meaning (Step P V) (Fin P → Nat → V) :=
  ⟨fun step => (step.update c).apply, Step.travels⟩

def stores : Phases.Phase P (Step P V) :=
  fun p => (List.range c.len).map fun i => .store p i (c.value p i)

end Constructor

/-! ### Updates of elements -/

namespace Update

variable {u u' : Update P V} {mem : Fin P → Nat → V} {q : Fin P} {i : Nat}

theorem apply_none (untouched : u.action q i = none) : u.apply mem q i = mem q i := by
  rw [apply, untouched]

theorem apply_some {f : V → V} (touched : u.action q i = some f) :
    u.apply mem q i = f (mem q i) := by
  rw [apply, touched]

/-- Updates which commute on the elements they share commute. -/
theorem apply_comm (commute : ∀ q i f g, u.action q i = some f → u'.action q i = some g →
    ∀ v, f (g v) = g (f v)) : u.apply (u'.apply mem) = u'.apply (u.apply mem) := by
  funext q i
  cases first : u.action q i with
  | none =>
    rw [apply_none first]
    cases second : u'.action q i with
    | none => rw [apply_none second, apply_none second, apply_none first]
    | some g => rw [apply_some second, apply_some second, apply_none first]
  | some f =>
    rw [apply_some first]
    cases second : u'.action q i with
    | none => rw [apply_none second, apply_none second, apply_some first]
    | some g => rw [apply_some second, apply_some second, apply_some first, commute q i f g first second]

/-- An update which stores values. -/
theorem action_finish {start : Nat} {data : List V} {pe : Fin P} {f : V → V}
    (touched : (finish start data pe).action q i = some f) :
    ∃ v, data[i - start]? = some v ∧ f = fun _ => v := by
  unfold action finish at touched
  split at touched
  · rw [List.getElem?_map, Option.map_eq_some_iff] at touched
    obtain ⟨v, stored, rfl⟩ := touched
    exact ⟨v, stored, rfl⟩
  · cases touched

theorem action_target {f : V → V} (touched : u.action q i = some f) : u.target = q :=
  (Object.action_some touched).1

/-- Updates of different PEs commute. -/
theorem apply_comm_of_ne (apart : u.target ≠ u'.target) :
    u.apply (u'.apply mem) = u'.apply (u.apply mem) := by
  apply apply_comm
  intro q i f g first second
  exact absurd ((action_target first).trans (action_target second).symm) apart

end Update

/-! ### The constructor -/

namespace Constructor

variable (c : Constructor P V)

theorem commutes_allocation : c.meaning.Commutes allocation := by
  intro a first b second mem
  obtain ⟨p, one⟩ := Phases.Phase.mem_all.mp first
  obtain ⟨q, other⟩ := Phases.Phase.mem_all.mp second
  obtain rfl := List.mem_singleton.mp one
  obtain rfl := List.mem_singleton.mp other
  by_cases same : p = q
  · rw [same]
  · exact Update.apply_comm_of_ne same

theorem mem_stores {step : Step P V} :
    step ∈ c.stores.all ↔ ∃ p, ∃ i < c.len, step = .store p i (c.value p i) := by
  simp [stores, eq_comm]

/-- Stores to one element, if these store one value, commute. -/
theorem commute_stores {p p' : Fin P} {i i' : Nat} {v v' : V} (agree : p = p' → i = i' → v = v')
    (mem : Fin P → Nat → V) :
    c.meaning.act (.store p i v) (c.meaning.act (.store p' i' v') mem) =
      c.meaning.act (.store p' i' v') (c.meaning.act (.store p i v) mem) := by
  by_cases same : p = p'
  · subst same
    apply Update.apply_comm
    intro q j f g first second
    obtain ⟨_, k, one, here⟩ := Object.action_some first
    obtain ⟨_, k', other, there⟩ := Object.action_some second
    obtain ⟨x, stored, rfl⟩ := Update.action_finish first
    obtain ⟨y, stored', rfl⟩ := Update.action_finish second
    simp only [Step.update, Update.finish, List.map_cons, List.map_nil, List.length_cons,
      List.length_nil] at one other here there
    obtain ⟨rfl, rfl⟩ : i = j ∧ i' = j := ⟨by omega, by omega⟩
    simp only [Nat.sub_self, List.getElem?_cons_zero, Option.some.injEq] at stored stored'
    rw [← stored, ← stored', agree rfl rfl]
    exact fun _ => rfl
  · exact Update.apply_comm_of_ne same

theorem commutes_stores : c.meaning.Commutes c.stores := by
  intro a first b second mem
  obtain ⟨p, i, _, rfl⟩ := c.mem_stores.mp first
  obtain ⟨q, j, _, rfl⟩ := c.mem_stores.mp second
  refine c.commute_stores ?_ mem
  rintro rfl rfl
  rfl

/-- A store to an element, and one which may go elsewhere. -/
theorem act_store_self (p : Fin P) (i : Nat) (v : V) (mem : Fin P → Nat → V) :
    c.meaning.act (.store p i v) mem p i = v := by
  simp [meaning, Step.update, Update.apply, Update.action, Update.finish]

theorem act_store_keeps {p q : Fin P} {i j : Nat} {v x : V} {mem : Fin P → Nat → V}
    (held : mem q j = x) (agree : p = q → i = j → v = x) :
    c.meaning.act (.store p i v) mem q j = x := by
  by_cases same : p = q ∧ i = j
  · obtain ⟨rfl, rfl⟩ := same
    rw [c.act_store_self, agree rfl rfl]
  · have untouched : ((Step.store p i v).update c).action q j = none := by
      cases touched : ((Step.store p i v).update c).action q j with
      | none => rfl
      | some f =>
        obtain ⟨target, k, inside, place⟩ := Object.action_some touched
        simp only [Step.update, Update.finish, List.map_cons, List.map_nil, List.length_cons,
          List.length_nil] at target inside place
        exact absurd ⟨target, by omega⟩ same
    exact (Update.apply_none untouched).trans held

/-- Once all have stored, every element has its initial value. -/
theorem stores_value (mem : Fin P → Nat → V) (q : Fin P) {i : Nat} (inside : i < c.len) :
    c.meaning.perform mem c.stores.all q i = c.value q i := by
  refine c.meaning.perform_establishes (fun mem => mem q i = c.value q i) ?_
    (c.mem_stores.mpr ⟨q, i, inside, rfl⟩) (c.act_store_self q i _) mem
  intro a member mem held
  obtain ⟨p, j, _, rfl⟩ := c.mem_stores.mp member
  refine c.act_store_keeps held ?_
  rintro rfl rfl
  rfl

/-- A put stores its elements on its PE, and nothing anywhere else. -/
theorem act_put_self {start i : Nat} {data : List V} {v : V} (low : start ≤ i)
    (stored : data[i - start]? = some v) (pe : Fin P) (mem : Fin P → Nat → V) :
    c.meaning.act (.put start data pe) mem pe i = v := by
  simp [meaning, Step.update, Update.apply, Update.action, Update.finish, low, stored]

theorem act_put_other {start : Nat} {data : List V} {pe q : Fin P} (other : pe ≠ q)
    (mem : Fin P → Nat → V) (i : Nat) : c.meaning.act (.put start data pe) mem q i = mem q i :=
  Update.apply_none (if_neg fun touched => other touched.1)

end Constructor

/-! ### Bytes and elements -/
section

variable {T : Type} [Pod T]

/-- The elements an update leaves, from its first on. -/
def Update.elems (u : Update P T) (shbox : Shbox T) (mem : Fin P → Nat → UInt8) : List T :=
  u.actions.mapIdx fun j f => f (shbox.elementsOn mem u.target (u.start + j))

def Update.applyBytes (u : Update P T) (shbox : Shbox T) (mem : Fin P → Nat → UInt8) :
    Fin P → Nat → UInt8 :=
  Write.apply ⟨u.target, shbox.addr + u.start * Pod.size T, encode (u.elems shbox mem)⟩ mem

def Shbox.meaning (shbox : Shbox T) (c : Constructor P T) :
    Phases.Meaning (Step P T) (Fin P → Nat → UInt8) :=
  ⟨fun step => (step.update c).applyBytes shbox, Step.travels⟩

/-- What a write of encoded elements does to the elements. -/
theorem encode_updates (shbox : Shbox T) (start : Nat) (data : List T) (pe : Fin P)
    (mem : Fin P → Nat → UInt8) :
    shbox.elementsOn ((⟨pe, shbox.addr + start * Pod.size T, encode data⟩ :
        Write (Fin P) UInt8).apply mem) =
      (Update.finish start data pe).apply (shbox.elementsOn mem) := by
  have source : encode data = window (overlay (fun _ => 0) 0 (encode data)) 0
      (data.length * Pod.size T) := by
    rw [← encode_length, window_overlay]
  funext q i
  by_cases touched : pe = q ∧ start ≤ i
  · obtain ⟨rfl, low⟩ := touched
    obtain ⟨j, rfl⟩ := Nat.exists_eq_add_of_le low
    rw [Shbox.elementsOn, Write.apply, Function.update_self, source]
    cases stored : data[j]? with
    | some t =>
      obtain ⟨inside, rfl⟩ := List.getElem?_eq_some_iff.mp stored
      rw [element_put_inside _ _ _ _ _ inside]
      have loaded := List.getElem_of_eq (elements_overlay (fun _ => 0) 0 data) (i := j) (by simpa)
      rw [elements_getElem] at loaded
      simp [loaded, Update.apply, Update.action, Update.finish, stored]
    | none =>
      have after := List.getElem?_eq_none_iff.mp stored
      rw [element_put_after _ _ _ _ _ after]
      simp [Update.apply, Update.action, Update.finish, stored, Shbox.elementsOn]
  · have untouched : (Update.finish start data pe).action q i = none := if_neg touched
    rw [Update.apply_none untouched]
    apply elementsOn_uncovered
    rintro x hx ⟨target, low, _⟩
    have before : i < start := by
      by_contra later
      exact touched ⟨target, Nat.le_of_not_lt later⟩
    have := RowMajor.index_lt before hx
    simp only at low
    omega

/-- The elements are a view of the bytes. -/
theorem Update.applyBytes_elements (u : Update P T) (shbox : Shbox T) (mem : Fin P → Nat → UInt8) :
    shbox.elementsOn (u.applyBytes shbox mem) = u.apply (shbox.elementsOn mem) := by
  rw [Update.applyBytes, encode_updates]
  funext q i
  simp only [Update.apply, Update.action, Update.finish, Update.elems]
  by_cases touched : u.target = q ∧ u.start ≤ i
  · obtain ⟨rfl, low⟩ := touched
    obtain ⟨j, rfl⟩ := Nat.exists_eq_add_of_le low
    simp only [true_and, low, if_true, Nat.add_sub_cancel_left, List.getElem?_map,
      List.getElem?_mapIdx]
    cases u.actions[j]? <;> rfl
  · simp only [touched, if_false]

theorem Shbox.act_put (shbox : Shbox T) (c : Constructor P T) (start : Nat) (data : List T)
    (pe : Fin P) : (shbox.meaning c).act (.put start data pe) =
      Write.apply ⟨pe, shbox.addr + start * Pod.size T, encode data⟩ := by
  funext mem
  have elems : (Update.finish start data pe).elems shbox mem = data := by
    apply List.ext_getElem?
    intro j
    simp only [Update.elems, Update.finish, List.getElem?_mapIdx, List.getElem?_map]
    cases data[j]? <;> rfl
  simp only [Shbox.meaning, Step.update, Update.applyBytes, elems]
  rfl

theorem Shbox.views (shbox : Shbox T) (c : Constructor P T) :
    Phases.Views (shbox.meaning c) c.meaning shbox.elementsOn :=
  ⟨fun step mem => (step.update c).applyBytes_elements shbox mem, rfl⟩

/-- In a phase without actions the elements are what the phases before it come to. -/
theorem Shbox.elementsOn_idle (shbox : Shbox T) (c : Constructor P T)
    {program : Phases.Program P (Step P T)} {mem : Fin P → Nat → UInt8} {events : List (Phases.Event P)}
    (run : ((shbox.meaning c).machine program).Admits (Phases.start P _ mem) events) {p : Fin P}
    {k i : Nat} (working : (((shbox.meaning c).machine program).after
      (Phases.start P _ mem) events).place p = .working k i)
    (commutes : ∀ phase ∈ program, c.meaning.Commutes phase) (idle : (program.actions k).all = []) :
    shbox.elementsOn (((shbox.meaning c).machine program).after (Phases.start P _ mem) events).mem =
      c.meaning.memory program (shbox.elementsOn mem) k := by
  obtain ⟨seen, found⟩ := (shbox.views c).run run
  have initial : (Phases.start P (Step P T) mem).view shbox.elementsOn =
      Phases.start P _ (shbox.elementsOn mem) := rfl
  rw [initial] at seen found
  have sound := Phases.Sound.run seen
  rw [found] at sound
  exact sound.mem_idle (p := p) working (fun phase early =>
    commutes phase (List.mem_of_mem_take early)) idle

end

/-! ### PE numbers -/

/-- `ctx.n_pes()`, a C int. -/
def nPes (P : Nat) : Usize := BitVec.ofNat 64 P

/-- `ctx.my_pe().raw()`, by way of a C int and a `u32`. -/
def myPe (p : Fin P) : Usize := (BitVec.ofNat 32 p).setWidth 64

/-- What `shmem_calloc` leaves of an element. -/
def zeroed (T : Type) [Pod T] : T := Pod.ofBytes (List.replicate (Pod.size T) 0)

theorem nPes_toNat (few : P ≤ cIntMax) : (nPes P).toNat = P := by
  simp only [cIntMax] at few
  rw [nPes, BitVec.toNat_ofNat]
  exact Nat.mod_eq_of_lt (by omega)

theorem nPes_ne_zero (few : P ≤ cIntMax) (positive : 0 < P) : nPes P ≠ 0 := by
  have number := nPes_toNat few
  intro zero
  rw [zero] at number
  exact absurd (number.symm.trans rfl) (Nat.ne_of_gt positive)

theorem myPe_toNat (few : P ≤ cIntMax) (p : Fin P) : (myPe p).toNat = p.val := by
  have inside := p.isLt
  simp only [cIntMax] at few
  rw [myPe, BitVec.toNat_setWidth, BitVec.toNat_ofNat]
  omega

/-- A PE of this world is accessible, and it is the one which is referred to. -/
theorem ctxPe_target (few : P ≤ cIntMax) {i : Usize} {p : Fin P} (number : i.toNat = p.val) :
    ∃ self : PEReference P, ctxPe P i = .ok self ∧ self.target = p := by
  have inside := p.isLt
  have small : i.toNat % 2^32 = p.val := by
    simp only [cIntMax] at few
    omega
  obtain ⟨self, made⟩ := (ctxPe_ok few).mpr (show i.toNat % 2^32 < P by omega)
  refine ⟨self, made, Fin.ext ?_⟩
  have target := self.target_cInt
  rw [ctxPe_cInt few made] at target
  omega

end OpenShmem
