import OpenShmem.Spmd
import OpenShmem.Visibility

/-! The program `pass_the_port.rs`: every PE sends its number to the next one, and behind a
barrier each finds that of the one before it. -/
namespace OpenShmem

open Overlay

variable {P : Nat} {T : Type} [Pod T]

namespace PassThePort

/-- `shmallocator.array::<f32>(0.0, 8)` -/
def shared (P : Nat) (zero : T) : Constructor P T := array (zeroed T) (fun _ => zero) 8

/-- `(my_pe + 1) % npes` -/
def next (p : Fin P) : Fin P := ⟨(p + 1) % P, Nat.mod_lt _ (Nat.zero_lt_of_lt p.isLt)⟩

/-- `my_pe - 1 mod npes` -/
def previous (p : Fin P) : Fin P := ⟨(p + P - 1) % P, Nat.mod_lt _ (Nat.zero_lt_of_lt p.isLt)⟩

/-- `cast` is the conversion `my_pe as _`. -/
def puts (P : Nat) (cast : Usize → T) : Phases.Phase P (Step P T) :=
  fun p => [.put 0 (List.replicate 8 (cast (myPe p))) (next p)]

/-- From one `barrier_all` to the other, with that of the allocation. -/
def main (P : Nat) (zero : T) (cast : Usize → T) : Phases.Program P (Step P T) :=
  [fun _ => [], allocation, (shared P zero).stores, puts P cast]

/-- What a PE calls between the last two barriers. -/
def send (build : Build) (cast : Usize → T) (shbox : Shbox T) (p : Fin P) : Shmem P Unit := do
  let sum ← attempt (usizeAdd build (myPe p) 1)
  let self ← attempt (ctxPe P (sum % nPes P))
  let remote ← self.write build shbox (.span 0 8)
  let remote := remote.assign fun i => if i < 8 then some (cast (myPe p)) else none
  remote.finish build

/-! ### The ring -/

theorem next_previous (p : Fin P) : next (previous p) = p := by
  have inside := p.isLt
  apply Fin.ext
  simp only [next, previous, Nat.mod_add_mod]
  rw [show p.val + P - 1 + 1 = p.val + P by omega, Nat.add_mod_right, Nat.mod_eq_of_lt inside]

theorem next_injective : Function.Injective (next : Fin P → Fin P) :=
  Finite.injective_iff_surjective.mpr fun p => ⟨previous p, next_previous p⟩

/-! ### One PE -/

/-- The call sends just the put of the program: eight times the number of the PE. -/
theorem send_run (build : Build) (cast : Usize → T) {shbox : Shbox T} (eight : shbox.len = 8)
    (few : P ≤ cIntMax) (p : Fin P) (w : World P) :
    ∃ after, (send build cast shbox p).run w = .ok () after ∧ after.mem = w.mem ∧
      after.puts = w.puts ++
        [⟨next p, shbox.addr + 0 * Pod.size T, encode (List.replicate 8 (cast (myPe p)))⟩] := by
  have inside := p.isLt
  have mine := myPe_toNat few p
  have all := nPes_toNat few
  have one : (1 : Usize).toNat = 1 := rfl
  have layout : 8 * Pod.size T ≤ isizeMax := by
    have layout := shbox.layout
    rwa [eight] at layout
  have fits : (myPe p).toNat + (1 : Usize).toNat < 2^64 := by
    rw [mine, one]
    simp only [cIntMax] at few
    omega
  have number : ((myPe p + 1) % nPes P).toNat = (next p).val := by
    rw [BitVec.toNat_umod, BitVec.toNat_add, Nat.mod_eq_of_lt fits, all, mine, one]
    rfl
  obtain ⟨self, made, target⟩ := ctxPe_target few number
  obtain ⟨data, elems⟩ : ∃ data : Slice T, data.elems = List.replicate 8 (cast (myPe p)) :=
    ⟨⟨_, by simp, by simpa using layout⟩, rfl⟩
  have count : data.elems.length = 8 := by rw [elems, List.length_replicate]
  have len : data.len = 8 := Slice.len_eq count
  have stored : (fun i => if i < 8 then some (cast (myPe p)) else none) = (data.elems[·]?) := by
    funext i
    rw [elems, List.getElem?_replicate]
  have positive : 0 < data.elems.length := by
    rw [count]
    decide
  have room : data.elems.length ≤ shbox.len.toNat := by
    rw [count, eight]
    decide
  have pushed := push_sends (w := w) build self .finish positive room
  rw [Push.run, len] at pushed
  refine ⟨w.sent shbox 0 data (data.elems.length * Pod.size T) self.target, ?_, rfl, ?_⟩
  · rw [send, usizeAdd_fits build fits, bind_ok (run_attempt_ok _ w), made,
      bind_ok (run_attempt_ok _ w), stored]
    exact pushed
  · simp only [World.sent, target, data.memory_window, ← elems]
    rfl

/-! ### All PEs -/

theorem commutes (zero : T) (cast : Usize → T) :
    ∀ phase ∈ main P zero cast, (shared P zero).meaning.Commutes phase := by
  intro phase member
  simp only [main, List.mem_cons, List.not_mem_nil, or_false] at member
  rcases member with rfl | rfl | rfl | rfl
  · intro a one
    simp at one
  · exact (shared P zero).commutes_allocation
  · exact (shared P zero).commutes_stores
  · intro a one b other mem
    obtain ⟨p, one⟩ := Phases.Phase.mem_all.mp one
    obtain ⟨q, other⟩ := Phases.Phase.mem_all.mp other
    obtain rfl := List.mem_singleton.mp one
    obtain rfl := List.mem_singleton.mp other
    by_cases same : p = q
    · rw [same]
    · exact Update.apply_comm_of_ne fun met => same (next_injective met)

/-- Once everything has arrived, a PE has the number of the one before it. -/
theorem received (zero : T) (cast : Usize → T) (mem : Fin P → Nat → T) (p : Fin P) {j : Nat}
    (inside : j < 8) : (shared P zero).meaning.memory (main P zero cast) mem 4 p j =
      cast (myPe (previous p)) := by
  have stored (q : Fin P) : (List.replicate 8 (cast (myPe q)))[j - 0]? = some (cast (myPe q)) := by
    rw [Nat.sub_zero, List.getElem?_replicate, if_pos inside]
  have arrives (q : Fin P) (mem : Fin P → Nat → T) (target : next q = p) :
      (shared P zero).meaning.act (.put 0 (List.replicate 8 (cast (myPe q))) (next q)) mem p j =
        cast (myPe (previous p)) := by
    obtain rfl := next_injective (target.trans (next_previous p).symm)
    have put := (shared P zero).act_put_self (Nat.zero_le j) (stored (previous p))
      (next (previous p)) mem
    rwa [target] at put ⊢
  have keeps : ∀ step ∈ (puts P cast).all, ∀ mem : Fin P → Nat → T,
      mem p j = cast (myPe (previous p)) →
      (shared P zero).meaning.act step mem p j = cast (myPe (previous p)) := by
    intro step member mem held
    obtain ⟨q, member⟩ := Phases.Phase.mem_all.mp member
    obtain rfl := List.mem_singleton.mp member
    by_cases target : next q = p
    · exact arrives q mem target
    · rw [(shared P zero).act_put_other target]
      exact held
  exact (shared P zero).meaning.perform_establishes (fun mem => mem p j = cast (myPe (previous p)))
    keeps (Phases.Phase.mem_all.mpr ⟨previous p, List.mem_singleton_self _⟩)
    (fun mem => arrives _ mem (next_previous p)) _

/-- What a PE calls is the put of the program, and behind the last barrier all of its
elements are the number of the PE before it. -/
structure Passes (build : Build) (zero : T) (cast : Usize → T) (shbox : Shbox T)
    (s : Phases.State P (Step P T) (Fin P → Nat → UInt8)) (length : Nat) : Prop where
  sends : ∀ (p : Fin P) (w : World P), ∃ after put, (send build cast shbox p).run w = .ok () after ∧
    after.mem = w.mem ∧ after.puts = w.puts ++ [put] ∧
    (puts P cast p).map (shbox.meaning (shared P zero)).act = [put.apply]
  sees : ∀ p i, s.place p = .working 4 i →
    shbox.contents (s.mem p) = List.replicate 8 (cast (myPe (previous p)))
  ends : Phases.Ends (main P zero cast) s length

end PassThePort

/-- Whatever the order in which the PEs run and their puts arrive. -/
theorem port_passes (build : Build) (zero : T) (cast : Usize → T) (shbox : Shbox T)
    (eight : shbox.len = 8) (few : P ≤ cIntMax) (mem : Fin P → Nat → UInt8)
    (events : List (Phases.Event P))
    (run : ((shbox.meaning (PassThePort.shared P zero)).machine
      (PassThePort.main P zero cast)).Admits (Phases.start P _ mem) events) :
    PassThePort.Passes build zero cast shbox (((shbox.meaning (PassThePort.shared P zero)).machine
      (PassThePort.main P zero cast)).after (Phases.start P _ mem) events) events.length := by
  refine ⟨?_, ?_, Phases.ends run⟩
  · intro p w
    obtain ⟨after, returned, kept, sent⟩ := PassThePort.send_run build cast eight few p w
    refine ⟨after, _, returned, kept, sent, ?_⟩
    rw [PassThePort.puts, List.map_singleton, shbox.act_put]
  · intro p i working
    have idle : ((PassThePort.main P zero cast).actions 4).all = [] := by
      simp [Phases.Program.actions, Phases.Phase.all, PassThePort.main]
    have elements := shbox.elementsOn_idle _ run working (PassThePort.commutes zero cast) idle
    apply List.ext_getElem
    · simp [eight]
    · intro j inside _
      have inside : j < 8 := by simpa [eight] using inside
      have value := congrFun (congrFun elements p) j
      simp only [Shbox.contents, elements_getElem, List.getElem_replicate]
      exact value.trans (PassThePort.received zero cast _ p inside)

/-- Two PEs, whose puts arrive in the other order. -/
theorem port_passes_two :
    PassThePort.Passes .release (0 : UInt8) (fun n => UInt8.ofNat n.toNat) ⟨16, 8, by decide⟩
      ((((⟨16, 8, by decide⟩ : Shbox UInt8).meaning (PassThePort.shared 2 0)).machine
        (PassThePort.main 2 0 fun n => UInt8.ofNat n.toNat)).after (Phases.start 2 _ fun _ _ => 3)
        ([.arrive 0, .arrive 1, .leave 0, .leave 1, .act 1, .act 0, .arrive 0, .arrive 1, .leave 1,
          .leave 0] ++ List.replicate 8 (.act 0) ++ List.replicate 8 (.act 1) ++ [.arrive 0, .arrive 1,
          .leave 0, .leave 1, .act 0, .act 1, .arrive 0, .land 1, .arrive 1, .land 0, .leave 1,
          .leave 0])) 38 :=
  port_passes .release 0 _ _ rfl (by decide) _ _ (by decide)

end OpenShmem
