import OpenShmem.Spmd
import OpenShmem.Visibility

/-! The program `hello_world.rs`: PE 0 sends four ones to PE 1, which sends four twos to
PE 0. A view which begins behind the second element panics when it goes out of scope, and
that of PE 0 does. -/
namespace OpenShmem

open Overlay

variable {P : Nat} {T : Type} [Pod T]

namespace HelloWorld

/-- `shmallocator.array::<f32>(0.0, 8)` -/
def shared (P : Nat) (zero : T) : Constructor P T := array (zeroed T) (fun _ => zero) 8

/-- What a PE calls between the last two barriers. -/
def send (build : Build) (one two : T) (shbox : Shbox T) (p : Fin P) : Shmem P Unit :=
  if p.val = 0 then do
    let self ← attempt (ctxPe P 1)
    let remote ← self.write build shbox (.span 4 8)
    (remote.assign fun i => if i < 4 then some one else none).drop build
  else if p.val = 1 then do
    let self ← attempt (ctxPe P 0)
    let remote ← self.write build shbox (.span 0 4)
    (remote.assign fun i => if i < 4 then some two else none).drop build
  else pure ()

/-- Only PE 1 gets to its put. -/
def puts (P : Nat) (two : T) : Phases.Phase P (Step P T) := fun p =>
  if p.val = 1 then [.put 0 (List.replicate 4 two) ⟨0, Nat.zero_lt_of_lt p.isLt⟩] else []

/-- From one `barrier_all` to the other, with that of the allocation. PE 0 does not come to
the last one; whether the others wait in vain for it or meet it unwinding is left open. -/
def main (P : Nat) (zero two : T) : Phases.Program P (Step P T) :=
  [fun _ => [], allocation, (shared P zero).stores, puts P two]

/-- What the array of a PE comes to. -/
def left (P : Nat) (zero two : T) (q : Fin P) (j : Nat) : T :=
  if q.val = 0 ∧ 2 ≤ P ∧ j < 4 then two else zero

end HelloWorld

/-! ### One view -/

theorem resolve_beyond {build : Build} {bounds : RangeBounds} {len start end_ : Usize}
    (ends : endOf build bounds.endBound len = .ok end_)
    (starts : startOf build bounds.startBound = .ok start) (beyond : end_.toNat > len.toNat) :
    resolve build bounds len = .error (.endOutOfBounds end_.toNat len.toNat) := by
  have refused : applyRangeBounds build bounds len =
      .error (.endOutOfBounds end_.toNat len.toNat) := by
    rw [applyRangeBounds, ends, starts]
    simp only [bind, Except.bind, if_pos beyond]
    rfl
  rw [resolve, refused]
  rfl

/-- The end of the range is looked up in the buffer of the view, which is shorter. -/
theorem dropped_panics (build : Build) (self : PEReference P) {shbox : Shbox T} {a b : Usize}
    (late : 1 < a.toNat) (ordered : a.toNat < b.toNat) (inside : b.toNat ≤ shbox.len.toNat)
    (values : Nat → Option T) (w : World P) :
    (do
      let view ← self.write build shbox (.span a b)
      (view.assign values).drop build).run w =
        .panic (.endOutOfBounds (b.toNat - 1) (b.toNat - a.toNat)) w := by
  obtain ⟨size, opened, count⟩ := resolve_span build ordered inside
  have fits : size.toNat * Pod.size T ≤ isizeMax := by
    refine Nat.le_trans (Nat.mul_le_mul_right _ ?_) shbox.layout
    omega
  obtain ⟨buf, made, length, _⟩ := PEReference.write_resolved self (w := w) opened fits
  have one : (1 : Usize).toNat = 1 := rfl
  have last : usizeSub build b 1 = .ok (b - 1) := usizeSub_fits build (by rw [one]; omega)
  have value : (b - 1).toNat = b.toNat - 1 := by
    rw [BitVec.toNat_sub_of_le (BitVec.le_def.mpr (by rw [one]; omega)), one]
  have refused : resolve build (.span a b) size =
      .error (.endOutOfBounds (b.toNat - 1) (b.toNat - a.toNat)) := by
    rw [← value, ← count]
    exact resolve_beyond last rfl (by omega)
  rw [bind_ok made]
  apply MutableArrayView.drop_rejected
  have len : (buf.assign values).len = size := by rw [Slice.assign_len, Slice.len_eq length]
  rw [← len] at refused
  exact refused

/-! ### One PE -/
namespace HelloWorld

variable {build : Build} {zero one two : T} {shbox : Shbox T} {p : Fin P}

theorem send_first (eight : shbox.len = 8) (few : P ≤ cIntMax) (first : p.val = 0) (w : World P) :
    (send build one two shbox p).run w =
      .panic (if P = 1 then .invalidPe 1 else .endOutOfBounds 7 4) w := by
  rw [send, if_pos first]
  by_cases alone : P = 1
  · subst alone
    have refused : ctxPe 1 1 = .error (.invalidPe 1) := rfl
    rw [if_pos rfl, refused, bind_panic (run_attempt_error _ w)]
  · have second : 1 < P := by
      have := p.isLt
      omega
    obtain ⟨self, made, _⟩ := ctxPe_target few (p := ⟨1, second⟩) (show (1 : Usize).toNat = 1 from rfl)
    rw [if_neg alone, made, bind_ok (run_attempt_ok _ w)]
    refine dropped_panics build self (by decide) (by decide) ?_ _ w
    rw [eight]

theorem send_second (eight : shbox.len = 8) (few : P ≤ cIntMax) (second : p.val = 1) (w : World P) :
    ∃ after put, (send build one two shbox p).run w = .ok () after ∧ after.mem = w.mem ∧
      after.puts = w.puts ++ [put] ∧
        (puts P two p).map (shbox.meaning (shared P zero)).act = [put.apply] := by
  have positive : 0 < P := Nat.zero_lt_of_lt p.isLt
  obtain ⟨self, made, target⟩ := ctxPe_target few (p := ⟨0, positive⟩) (show (0 : Usize).toNat = 0 from rfl)
  have layout : 4 * Pod.size T ≤ isizeMax := by
    have layout := shbox.layout
    rw [eight] at layout
    exact Nat.le_trans (Nat.mul_le_mul_right _ (by decide)) layout
  obtain ⟨data, elems⟩ : ∃ data : Slice T, data.elems = List.replicate 4 two :=
    ⟨⟨_, by simp, by simpa using layout⟩, rfl⟩
  have count : data.elems.length = 4 := by rw [elems, List.length_replicate]
  have len : data.len = 4 := Slice.len_eq count
  have stored : (fun i => if i < 4 then some two else none) = (data.elems[·]?) := by
    funext i
    rw [elems, List.getElem?_replicate]
  have room : data.elems.length ≤ shbox.len.toNat := by
    rw [count, eight]
    decide
  have pushed := push_sends (w := w) build self .finish (by rw [count]; decide) room
  rw [Push.run, len] at pushed
  have other : p.val ≠ 0 := by omega
  refine ⟨w.sent shbox 0 data (data.elems.length * Pod.size T) self.target, _, ?_, rfl, rfl, ?_⟩
  · rw [send, if_neg other, if_pos second, made, bind_ok (run_attempt_ok _ w), stored]
    exact pushed
  · rw [puts, if_pos second, List.map_singleton, shbox.act_put, data.memory_window, elems, target]
    rfl

/-! ### All PEs -/

omit [Pod T] in
theorem mem_puts {step : Step P T} (member : step ∈ (puts P two).all) :
    ∃ q : Fin P, q.val = 0 ∧ 2 ≤ P ∧ step = .put 0 (List.replicate 4 two) q := by
  obtain ⟨p, issued⟩ := Phases.Phase.mem_all.mp member
  by_cases second : p.val = 1
  · rw [puts, if_pos second, List.mem_singleton] at issued
    have := p.isLt
    exact ⟨_, rfl, by omega, issued⟩
  · rw [puts, if_neg second] at issued
    exact absurd issued List.not_mem_nil

theorem commutes (zero two : T) :
    ∀ phase ∈ main P zero two, (shared P zero).meaning.Commutes phase := by
  intro phase member
  simp only [main, List.mem_cons, List.not_mem_nil, or_false] at member
  rcases member with rfl | rfl | rfl | rfl
  · intro a none
    simp at none
  · exact (shared P zero).commutes_allocation
  · exact (shared P zero).commutes_stores
  · intro a one b other mem
    obtain ⟨p, first, _, rfl⟩ := mem_puts one
    obtain ⟨q, second, _, rfl⟩ := mem_puts other
    obtain rfl : p = q := Fin.ext (first.trans second.symm)
    rfl

/-- The twos are in the first half of PE 0, and everything else is as it was stored. -/
theorem received (zero two : T) (mem : Fin P → Nat → T) (q : Fin P) {j : Nat} (inside : j < 8) :
    (shared P zero).meaning.memory (main P zero two) mem 4 q j = left P zero two q j := by
  have stored : ∀ mem, (shared P zero).meaning.perform mem (shared P zero).stores.all q j = zero :=
    fun mem => (shared P zero).stores_value mem q inside
  by_cases twos : q.val = 0 ∧ 2 ≤ P ∧ j < 4
  · have held : (List.replicate 4 two)[j - 0]? = some two := by
      rw [Nat.sub_zero, List.getElem?_replicate, if_pos twos.2.2]
    rw [left, if_pos twos]
    refine (shared P zero).meaning.perform_establishes (fun mem => mem q j = two) ?_
      (a := .put 0 (List.replicate 4 two) q) ?_ ?_ _
    · intro step member mem before
      obtain ⟨p, first, _, rfl⟩ := mem_puts member
      obtain rfl : p = q := Fin.ext (first.trans twos.1.symm)
      exact (shared P zero).act_put_self (Nat.zero_le j) held p mem
    · refine Phases.Phase.mem_all.mpr ⟨⟨1, twos.2.1⟩, ?_⟩
      rw [puts, if_pos rfl, List.mem_singleton]
      congr 1
      exact Fin.ext twos.1
    · exact fun mem => (shared P zero).act_put_self (Nat.zero_le j) held q mem
  · rw [left, if_neg twos]
    suffices keeps : ∀ step ∈ (puts P two).all, ∀ mem : Fin P → Nat → T, mem q j = zero →
        (shared P zero).meaning.act step mem q j = zero from
      (shared P zero).meaning.perform_keeps keeps (stored _)
    intro step member mem before
    obtain ⟨p, first, second, rfl⟩ := mem_puts member
    by_cases same : p = q
    · subst same
      have late : 4 ≤ j := Nat.le_of_not_lt fun early => twos ⟨first, second, early⟩
      refine (Update.apply_none ?_).trans before
      simp [Step.update, Update.action, Update.finish, late]
    · rw [(shared P zero).act_put_other same]
      exact before

/-- PE 0 panics before it has sent anything, and so nobody ever sees a one: what the PEs
find behind the last barrier, should they get there, is this. -/
structure Loses (build : Build) (zero one two : T) (shbox : Shbox T)
    (s : Phases.State P (Step P T) (Fin P → Nat → UInt8)) : Prop where
  first : ∀ (p : Fin P) w, p.val = 0 → (send build one two shbox p).run w =
    .panic (if P = 1 then .invalidPe 1 else .endOutOfBounds 7 4) w
  second : ∀ (p : Fin P) w, p.val = 1 → ∃ after put,
    (send build one two shbox p).run w = .ok () after ∧ after.mem = w.mem ∧
      after.puts = w.puts ++ [put] ∧
        (puts P two p).map (shbox.meaning (shared P zero)).act = [put.apply]
  others : ∀ (p : Fin P) w, 2 ≤ p.val → (send build one two shbox p).run w = .ok () w
  sees : ∀ p i, s.place p = .working 4 i → ∀ q,
    shbox.contents (s.mem q) = (List.range 8).map (left P zero two q)

end HelloWorld

/-- Whatever the order in which the PEs run and the put arrives. -/
theorem hello_loses (build : Build) (zero one two : T) (shbox : Shbox T) (eight : shbox.len = 8)
    (few : P ≤ cIntMax) (mem : Fin P → Nat → UInt8) (events : List (Phases.Event P))
    (run : ((shbox.meaning (HelloWorld.shared P zero)).machine
      (HelloWorld.main P zero two)).Admits (Phases.start P _ mem) events) :
    HelloWorld.Loses build zero one two shbox (((shbox.meaning (HelloWorld.shared P zero)).machine
      (HelloWorld.main P zero two)).after (Phases.start P _ mem) events) := by
  refine ⟨fun p w first => HelloWorld.send_first eight few first w,
    fun p w second => HelloWorld.send_second eight few second w, ?_, ?_⟩
  · intro p w later
    rw [HelloWorld.send, if_neg (by omega), if_neg (by omega)]
    rfl
  · intro p i working q
    have idle : ((HelloWorld.main P zero two).actions 4).all = [] := by
      simp [Phases.Program.actions, Phases.Phase.all, HelloWorld.main]
    have elements := shbox.elementsOn_idle _ run working (HelloWorld.commutes zero two) idle
    apply List.ext_getElem
    · simp [eight]
    · intro j inside _
      have inside : j < 8 := by simpa [eight] using inside
      have value := congrFun (congrFun elements q) j
      simp only [Shbox.contents, elements_getElem, List.getElem_map, List.getElem_range]
      exact value.trans (HelloWorld.received zero two _ q inside)

/-- Two PEs up to the put of PE 1. -/
theorem hello_loses_two :
    HelloWorld.Loses .debug (0 : UInt8) 1 2 ⟨16, 8, by decide⟩
      ((((⟨16, 8, by decide⟩ : Shbox UInt8).meaning (HelloWorld.shared 2 0)).machine
        (HelloWorld.main 2 0 2)).after (Phases.start 2 _ fun _ _ => 3)
        ([.arrive 0, .arrive 1, .leave 0, .leave 1, .act 1, .act 0, .arrive 0, .arrive 1, .leave 1,
          .leave 0] ++ List.replicate 8 (.act 0) ++ List.replicate 8 (.act 1) ++ [.arrive 0, .arrive 1,
          .leave 0, .leave 1, .act 1, .arrive 1, .land 0, .arrive 0, .leave 1])) :=
  hello_loses .debug 0 1 2 _ rfl (by decide) _ _ (by decide)

end OpenShmem
