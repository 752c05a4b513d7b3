import OpenShmem.Lock
import OpenShmem.Phases
import OpenShmem.Range

/-! The program `lock.rs`. All PEs print at the same time, and then each of them once more while
it holds the lock. -/
namespace OpenShmem

variable {P : Nat}

namespace LockedPrints

/-! ### The program -/

def u32Max : Usize := 0xFFFFFFFF

/-- The generator the pauses between two prints depend on. -/
def rand (build : Build) (rng : Usize) : Except Panic Usize := do
  let product ← usizeMul build 75 rng
  let sum ← usizeAdd build product 74
  return sum % u32Max

inductive Call where
  | sleepPrint
  | println (text : String)
  deriving DecidableEq, Repr

inductive Stmt where
  | barrierAll
  | all (call : Call)
  | root (call : Call)
  deriving DecidableEq, Repr

/-- Statements before the lock is taken, and calls until it is dropped. -/
structure Program where
  opening : List Stmt
  body : List Call

def main : Program where
  opening := [.root (.println "unlocked prints:"), .barrierAll] ++ List.replicate 20 (.all .sleepPrint) ++
    [.barrierAll, .root (.println "\nlocked prints:"), .barrierAll]
  body := List.replicate 20 .sleepPrint ++ [.println ""]

def Stmt.calls (p : Fin P) : Stmt → List Call
  | .barrierAll => []
  | .all call => [call]
  | .root call => if p.val = 0 then [call] else []

def Call.draw (build : Build) (rng : Usize) : Call → Except Panic Usize
  | .sleepPrint => rand build rng
  | .println _ => .ok rng

/-- A PE has done `k` of the statements before the lock or of the calls under it. -/
inductive Place where
  | opening (k : Nat)
  | inside (k : Nat)
  | through
  deriving DecidableEq, Repr

/-- `calls` is the calls of `print!` and `println!`, in order and by whom. -/
structure State (P : Nat) where
  locking : Locking P
  place : Fin P → Place
  rng : Fin P → Usize
  calls : List (Fin P × Call)

inductive Event (P : Nat) where
  | allocate (p : Fin P)
  | allocated (p : Fin P)
  | store (p : Fin P)
  | step (p : Fin P)

variable (program : Program)

def Place.stmt : Place → Option Stmt
  | .opening k => program.opening[k]?
  | .inside k => program.body[k]?.map .all
  | .through => none

def Place.next : Place → Place
  | .opening k => if k < program.opening.length then .opening (k + 1) else .inside 0
  | .inside k => if k < program.body.length then .inside (k + 1) else .through
  | .through => .through

/-- A PE which is at statement `k` before the lock, or behind it. -/
def Place.Reached (k : Nat) : Place → Prop
  | .opening k' => k ≤ k'
  | .inside _ | .through => True

def State.Reached (s : State P) (k : Nat) (q : Fin P) : Prop :=
  s.locking.lock.stage q = .returned ∧ (s.place q).Reached k

/-- The step of the lock an event is. -/
def State.locks (s : State P) : Event P → Option (Locking.Event P)
  | .allocate p => some (.allocate p)
  | .allocated p => some (.allocated p)
  | .store p => some (.store p)
  | .step p => match s.place p with
    | .opening k => if k < program.opening.length then none else some (.setLock p)
    | .inside k => if k < program.body.length then none else some (.clearLock p)
    | .through => none

/-- The calls of the next statement of a PE. -/
def State.prints (s : State P) (p : Fin P) : List Call :=
  ((s.place p).stmt program).toList.flatMap (Stmt.calls p)

def State.draw (build : Build) (s : State P) (p : Fin P) : Except Panic Usize :=
  (s.prints program p).foldlM (Call.draw build) (s.rng p)

def Place.count : Place → Nat
  | .opening k | .inside k => k
  | .through => 0

/-- A barrier waits for everybody, and a PE which panics does not go on. -/
def State.Ready (build : Build) (s : State P) : Event P → Prop
  | .allocate _ | .allocated _ | .store _ => True
  | .step p => s.locking.lock.stage p = .returned ∧ s.place p ≠ .through ∧
      (s.draw program build p).isOk ∧
      ((s.place p).stmt program = some .barrierAll → ∀ q, s.Reached (s.place p).count q)

def State.Granted (home : Fin P) (s : State P) : Option (Locking.Event P) → Prop
  | some e => Locking.enabled home s.locking e
  | none => True

def enabled (build : Build) (home : Fin P) (s : State P) (e : Event P) : Prop :=
  s.Ready program build e ∧ s.Granted home (s.locks program e)

instance (k : Nat) : (place : Place) → Decidable (place.Reached k)
  | .opening _ => inferInstanceAs (Decidable (_ ≤ _))
  | .inside _ | .through => .isTrue trivial

instance (s : State P) (k : Nat) (q : Fin P) : Decidable (s.Reached k q) :=
  inferInstanceAs (Decidable (_ ∧ _))

instance (build : Build) (s : State P) : (e : Event P) → Decidable (s.Ready program build e)
  | .allocate _ | .allocated _ | .store _ => .isTrue trivial
  | .step _ => inferInstanceAs (Decidable (_ ∧ _ ∧ _ ∧ _))

instance (home : Fin P) (s : State P) : (e : Option (Locking.Event P)) → Decidable (s.Granted home e)
  | some e => inferInstanceAs (Decidable (Locking.enabled home s.locking e))
  | none => .isTrue trivial

def State.lock (home : Fin P) (s : State P) : Option (Locking.Event P) → Locking P
  | some e => Locking.next home s.locking e
  | none => s.locking

def next (build : Build) (home : Fin P) (s : State P) (e : Event P) : State P :=
  let locking := s.lock home (s.locks program e)
  match e with
  | .allocate _ | .allocated _ | .store _ => { s with locking }
  | .step p =>
    { locking
      place := Function.update s.place p ((s.place p).next program)
      rng := Function.update s.rng p (match s.draw program build p with
        | .ok rng => rng
        | .error _ => s.rng p)
      calls := s.calls ++ (s.prints program p).map fun call => (p, call) }

def machine (build : Build) (home : Fin P) : Machine (State P) (Event P) :=
  ⟨enabled program build home, next program build home⟩

instance (build : Build) (home : Fin P) (s : State P) (e : Event P) :
    Decidable ((machine program build home).enabled s e) := inferInstanceAs (Decidable (_ ∧ _))

/-- `let mut rng = 0xDEADBEEF` -/
def start (mem : Fin P → Nat → LockWord P) : State P :=
  ⟨Locking.start mem, fun _ => .opening 0, fun _ => 0xDEADBEEF, []⟩

/-! ### What a PE has printed -/

def Place.Inside : Place → Prop
  | .inside _ => True
  | .opening _ | .through => False

instance : (place : Place) → Decidable place.Inside
  | .inside _ => .isTrue trivial
  | .opening _ | .through => .isFalse id

/-- What a PE at this place has printed so far. -/
def Place.calls (p : Fin P) : Place → List Call
  | .opening k => (program.opening.take k).flatMap (Stmt.calls p)
  | .inside k => program.opening.flatMap (Stmt.calls p) ++ program.body.take k
  | .through => program.opening.flatMap (Stmt.calls p) ++ program.body

/-- What is said by one PE. -/
def said (calls : List (Fin P × Call)) (p : Fin P) : List Call :=
  (calls.filter (·.1 = p)).map Prod.snd

/-- What a PE prints while it holds the lock. -/
def block (p : Fin P) : List (Fin P × Call) := program.body.map fun call => (p, call)

/-- It has taken the lock. -/
def Place.Entered : Place → Prop
  | .opening _ => False
  | .inside _ | .through => True

/-- What was printed before the lock was first taken, then the blocks of some PEs in their
order, and then what the holder has printed up to now. -/
structure Parts (place : Fin P → Place) (calls early : List (Fin P × Call)) (order : List (Fin P))
    (current : List (Fin P × Call)) : Prop where
  calls : calls = early ++ order.flatMap (block program) ++ current
  nodup : order.Nodup
  through : ∀ p, p ∈ order ↔ place p = .through
  opened : (∃ q, (place q).Entered) → ∀ p, said early p = program.opening.flatMap (Stmt.calls p)

inductive Blocks (place : Fin P → Place) (calls : List (Fin P × Call)) : Prop
  | free (early : List (Fin P × Call)) (order : List (Fin P))
      (parts : Parts program place calls early order []) (out : ∀ p, ¬ (place p).Inside)
  | held (early : List (Fin P × Call)) (order : List (Fin P)) (p : Fin P) (k : Nat)
      (holder : place p = .inside k)
      (parts : Parts program place calls early order ((program.body.take k).map fun call => (p, call)))

/-! ### What every run keeps -/

def Place.Within : Place → Prop
  | .opening k => k ≤ program.opening.length
  | .inside k => k ≤ program.body.length
  | .through => True

/-- It has left the barrier which is statement `k`. -/
def Place.Past (k : Nat) : Place → Prop
  | .opening k' => k < k'
  | .inside _ | .through => True

structure Sound (home : Fin P) (s : State P) : Prop where
  locking : Locking.Sound home s.locking
  outside : ∀ p, s.locking.lock.stage p ≠ .returned → s.place p = .opening 0
  within : ∀ p, (s.place p).Within program
  together : ∀ p k, (s.place p).Past k → program.opening[k]? = some .barrierAll → ∀ q, s.Reached k q
  guards : ∀ p, s.locking.guards p = if (s.place p).Inside then 1 else 0
  small : ∀ p, (s.rng p).toNat < u32Max.toNat
  own : ∀ p, said s.calls p = (s.place p).calls program p
  blocks : Blocks program s.place s.calls

/-- The generator stays below its modulus and never overflows. -/
theorem rand_ok (build : Build) {rng : Usize} (small : rng.toNat < u32Max.toNat) :
    ∃ next, rand build rng = .ok next ∧ next.toNat < u32Max.toNat := by
  have bound : rng.toNat < 4294967295 := small
  have product : (75 : Usize).toNat * rng.toNat < 2^64 := by
    rw [show (75 : Usize).toNat = 75 from rfl]
    omega
  have value : (75 * rng : Usize).toNat = 75 * rng.toNat := by
    rw [BitVec.toNat_mul, Nat.mod_eq_of_lt product]
    rfl
  have sum : (75 * rng : Usize).toNat + (74 : Usize).toNat < 2^64 := by
    rw [value, show (74 : Usize).toNat = 74 from rfl]
    omega
  refine ⟨(75 * rng + 74) % u32Max, ?_, ?_⟩
  · rw [rand, usizeMul_fits build product]
    simp only [bind, Except.bind, usizeAdd_fits build sum]
    rfl
  · rw [BitVec.toNat_umod]
    exact Nat.mod_lt _ (by decide)

theorem draw_ok (build : Build) (calls : List Call) {rng : Usize} (small : rng.toNat < u32Max.toNat) :
    ∃ next, calls.foldlM (Call.draw build) rng = .ok next ∧ next.toNat < u32Max.toNat := by
  induction calls generalizing rng with
  | nil => exact ⟨rng, rfl, small⟩
  | cons call rest ih =>
    obtain ⟨drawn, draws, drawn_small⟩ : ∃ drawn, call.draw build rng = .ok drawn ∧
        drawn.toNat < u32Max.toNat := by
      cases call with
      | sleepPrint => exact rand_ok build small
      | println text => exact ⟨rng, rfl, small⟩
    obtain ⟨next, rest_draws, next_small⟩ := ih drawn_small
    refine ⟨next, ?_, next_small⟩
    rw [List.foldlM_cons, draws]
    exact rest_draws

theorem said_append (calls more : List (Fin P × Call)) (p : Fin P) :
    said (calls ++ more) p = said calls p ++ said more p := by
  simp [said]

theorem said_own (calls : List Call) (p q : Fin P) :
    said (calls.map fun call => (p, call)) q = if q = p then calls else [] := by
  by_cases same : q = p
  · subst same
    simp [said, List.filter_map, Function.comp_def]
  · simp [said, List.filter_map, Function.comp_def, same, Ne.symm same]

variable {program} {home : Fin P} {s : State P} {p q : Fin P}

theorem through_update {place : Fin P → Place} {new : Place} {order : List (Fin P)}
    (through : ∀ q, q ∈ order ↔ place q = .through) (before : place p ≠ .through) (after : new ≠ .through)
    (q : Fin P) : q ∈ order ↔ Function.update place p new q = .through := by
  by_cases same : q = p
  · subst same
    rw [Function.update_self, through]
    exact iff_of_false before after
  · rw [Function.update_of_ne same, through]

/-- Where nobody has taken the lock there are no blocks. -/
theorem Parts.closed (program : Program) {place : Fin P → Place} (nobody : ¬ ∃ q, (place q).Entered)
    (calls : List (Fin P × Call)) : Parts program place calls calls [] [] := by
  refine ⟨by simp, List.nodup_nil, fun p => ?_, fun entered => absurd entered nobody⟩
  refine iff_of_false List.not_mem_nil fun through => nobody ⟨p, ?_⟩
  rw [through]
  trivial

namespace Sound

theorem alone (sound : Sound program home s) (one : (s.place p).Inside) (other : (s.place q).Inside) :
    q = p := by
  have live := sound.guards p
  rw [if_pos one] at live
  have holds := (sound.locking.holder (p := p) (by omega)).2
  by_contra differ
  have guard := sound.guards q
  rw [if_pos other, holds, Pi.single_eq_of_ne differ] at guard
  cases guard

/-- A step of the construction of the lock. -/
theorem construct (sound : Sound program home s) {locking : Locking P}
    (keeps : Locking.Sound home locking) (guards : locking.guards = s.locking.guards)
    (building : s.locking.lock.stage p ≠ .returned)
    (others : ∀ q, q ≠ p → locking.lock.stage q = s.locking.lock.stage q) :
    Sound program home { s with locking } := by
  refine ⟨keeps, ?_, sound.within, ?_, ?_, sound.small, sound.own, sound.blocks⟩
  · intro q early
    by_cases same : q = p
    · subst same
      exact sound.outside q building
    · rw [others q same] at early
      exact sound.outside q early
  · intro q k past barrier r
    have reached := sound.together q k past barrier r
    refine ⟨?_, reached.2⟩
    rw [others r fun same => building (same ▸ reached.1)]
    exact reached.1
  · intro q
    rw [guards]
    exact sound.guards q

/-- A PE whose constructor has returned goes on. -/
theorem move (sound : Sound program home s) (returned : s.locking.lock.stage p = .returned) (new : Place)
    {locking : Locking P} {rng : Usize} {more : List Call}
    (keeps : Locking.Sound home locking) (stages : locking.lock.stage = s.locking.lock.stage)
    (within : new.Within program) (grows : ∀ k, (s.place p).Reached k → new.Reached k)
    (past : ∀ k, new.Past k → program.opening[k]? = some .barrierAll → ∀ q, s.Reached k q)
    (guards : locking.guards = Function.update s.locking.guards p (if new.Inside then 1 else 0))
    (small : rng.toNat < u32Max.toNat)
    (own : new.calls program p = (s.place p).calls program p ++ more)
    (blocks : Blocks program (Function.update s.place p new)
      (s.calls ++ more.map fun call => (p, call))) :
    Sound program home ⟨locking, Function.update s.place p new, Function.update s.rng p rng,
      s.calls ++ more.map fun call => (p, call)⟩ := by
  refine ⟨keeps, ?_, ?_, ?_, ?_, ?_, ?_, blocks⟩
  · intro q early
    simp only [stages] at early
    have other : q ≠ p := by
      rintro rfl
      exact early returned
    simpa only [Function.update_of_ne other] using sound.outside q early
  · intro q
    by_cases same : q = p
    · subst same
      simpa only [Function.update_self] using within
    · simpa only [Function.update_of_ne same] using sound.within q
  · intro q k beyond barrier r
    have reached : s.Reached k r := by
      by_cases same : q = p
      · subst same
        simp only [Function.update_self] at beyond
        exact past k beyond barrier r
      · simp only [Function.update_of_ne same] at beyond
        exact sound.together q k beyond barrier r
    refine ⟨by rw [stages]; exact reached.1, ?_⟩
    by_cases same : r = p
    · subst same
      simpa only [Function.update_self] using grows k reached.2
    · simpa only [Function.update_of_ne same] using reached.2
  · intro q
    rw [guards]
    by_cases same : q = p
    · subst same
      simp only [Function.update_self]
    · simp only [Function.update_of_ne same]
      exact sound.guards q
  · intro q
    by_cases same : q = p
    · subst same
      simpa only [Function.update_self] using small
    · simpa only [Function.update_of_ne same] using sound.small q
  · intro q
    rw [said_append, said_own, sound.own q]
    by_cases same : q = p
    · subst same
      simp only [if_pos, Function.update_self, own]
    · simp only [if_neg same, Function.update_of_ne same, List.append_nil]

section

variable (ends : program.opening.getLast? = some .barrierAll)

include ends

theorem barrier_last : program.opening[program.opening.length - 1]? = some .barrierAll := by
  rwa [← List.getLast?_eq_getElem?]

/-- Where a PE has taken the lock, everybody is at the last barrier before it. -/
theorem reached_last (sound : Sound program home s) (entered : (s.place p).Entered) (q : Fin P) :
    s.Reached (program.opening.length - 1) q := by
  refine sound.together p _ ?_ (barrier_last ends) q
  cases place : s.place p with
  | opening k =>
    rw [place] at entered
    exact entered.elim
  | inside k | through => trivial

/-- The last barrier prints nothing. -/
theorem calls_last {k : Nat} (late : program.opening.length - 1 ≤ k) (p : Fin P) :
    (program.opening.take k).flatMap (Stmt.calls p) = program.opening.flatMap (Stmt.calls p) := by
  by_cases all : program.opening.length ≤ k
  · rw [List.take_of_length_le all]
  · have last : k = program.opening.length - 1 := by omega
    have split := List.dropLast_append_getLast? _ ends
    conv_rhs => rw [← split]
    rw [last, ← List.dropLast_eq_take, List.flatMap_append]
    simp [Stmt.calls]

/-- A PE which prints something before the lock does so before anybody has taken it. -/
theorem silent (sound : Sound program home s) {k : Nat} {stmt : Stmt} (place : s.place p = .opening k)
    (here : program.opening[k]? = some stmt) (entered : (s.place q).Entered) : stmt.calls p = [] := by
  have reached := (sound.reached_last ends entered p).2
  rw [place] at reached
  have inside := (List.getElem?_eq_some_iff.mp here).1
  have late : program.opening.length - 1 ≤ k := reached
  have last : k = program.opening.length - 1 := by omega
  rw [last, barrier_last ends] at here
  obtain rfl := Option.some.inj here
  rfl

end

/-- The barriers before a place are those it is past. -/
theorem past_next (sound : Sound program home s) {k : Nat} {stmt : Stmt} (place : s.place p = .opening k)
    (here : program.opening[k]? = some stmt) (met : stmt = .barrierAll → ∀ q, s.Reached k q)
    (k' : Nat) (past : (Place.opening (k + 1)).Past k') (barrier : program.opening[k']? = some .barrierAll)
    (q : Fin P) : s.Reached k' q := by
  rcases Nat.lt_or_eq_of_le (Nat.le_of_lt_succ past) with earlier | rfl
  · exact sound.together p k' (by rw [place]; exact earlier) barrier q
  · rw [here] at barrier
    exact met (Option.some.inj barrier) q

theorem opening_step (sound : Sound program home s)
    (ends : program.opening.getLast? = some .barrierAll)
    (returned : s.locking.lock.stage p = .returned) {k : Nat} {stmt : Stmt}
    (place : s.place p = .opening k) (here : program.opening[k]? = some stmt)
    (met : stmt = .barrierAll → ∀ q, s.Reached k q) {rng : Usize} (small : rng.toNat < u32Max.toNat) :
    Sound program home ⟨s.locking, Function.update s.place p (.opening (k + 1)),
      Function.update s.rng p rng, s.calls ++ (stmt.calls p).map fun call => (p, call)⟩ := by
  have inside := (List.getElem?_eq_some_iff.mp here).1
  have unheld : s.locking.guards p = 0 := by rw [sound.guards p, place]; rfl
  refine sound.move returned (.opening (k + 1)) sound.locking rfl inside ?_
    (sound.past_next place here met) ?_ small ?_ ?_
  · rw [place]
    exact fun k' reached => Nat.le_succ_of_le reached
  · exact (Function.update_eq_self_iff.mpr unheld.symm).symm
  · rw [place, Place.calls, Place.calls, List.take_add_one, here, List.flatMap_append]
    simp
  · by_cases somebody : ∃ q, (s.place q).Entered
    · -- Only the last barrier is left to pass.
      obtain ⟨q, entered⟩ := somebody
      rw [sound.silent ends place here entered, List.map_nil, List.append_nil]
      cases sound.blocks with
      | free early order parts out =>
        refine .free early order ⟨parts.calls, parts.nodup, ?_, fun _ => parts.opened ⟨q, entered⟩⟩ ?_
        · exact through_update parts.through (by rw [place]; exact Place.noConfusion) Place.noConfusion
        · intro r
          by_cases same : r = p
          · subst same
            rw [Function.update_self]
            exact id
          · rw [Function.update_of_ne same]
            exact out r
      | held early order r k' holder parts =>
        refine .held early order r k' ?_
          ⟨parts.calls, parts.nodup, ?_, fun _ => parts.opened ⟨q, entered⟩⟩
        · rw [Function.update_of_ne, holder]
          rintro rfl
          rw [holder] at place
          cases place
        · exact through_update parts.through (by rw [place]; exact Place.noConfusion) Place.noConfusion
    · have nobody : ¬ ∃ q, (Function.update s.place p (.opening (k + 1)) q).Entered := by
        rintro ⟨q, entered⟩
        by_cases same : q = p
        · subst same
          rw [Function.update_self] at entered
          exact entered
        · rw [Function.update_of_ne same] at entered
          exact somebody ⟨q, entered⟩
      refine .free _ [] (Parts.closed program nobody _) ?_
      · intro q holds
        refine nobody ⟨q, ?_⟩
        cases new : Function.update s.place p (.opening (k + 1)) q with
        | opening _ | through =>
          rw [new] at holds
          exact holds.elim
        | inside _ => trivial

theorem lock_step (sound : Sound program home s)
    (ends : program.opening.getLast? = some .barrierAll)
    (returned : s.locking.lock.stage p = .returned)
    (place : s.place p = .opening program.opening.length) (free : s.locking.word home = .free) :
    Sound program home ⟨Locking.next home s.locking (.setLock p), Function.update s.place p (.inside 0),
      Function.update s.rng p (s.rng p), s.calls ++ [].map fun call => (p, call)⟩ := by
  have unheld : s.locking.guards p = 0 := by rw [sound.guards p, place]; rfl
  have out (q : Fin P) : ¬ (s.place q).Inside := by
    intro inside
    have live := sound.guards q
    rw [if_pos inside] at live
    have holds := (sound.locking.holder (p := q) (by omega)).1
    rw [free] at holds
    cases holds
  have reached (k : Nat) (barrier : program.opening[k]? = some .barrierAll) (q : Fin P) :
      s.Reached k q := by
    refine sound.together p k ?_ barrier q
    rw [place]
    exact (List.getElem?_eq_some_iff.mp barrier).1
  refine sound.move returned (.inside 0) (sound.locking.setLock free) rfl (Nat.zero_le _)
    (fun _ _ => trivial) (fun k _ => reached k) ?_ (sound.small p) ?_ ?_
  · rw [Locking.next, unheld]
    rfl
  · rw [place, Place.calls, Place.calls, List.take_length, List.take_zero]
  · rw [List.map_nil, List.append_nil]
    cases sound.blocks with
    | held early order q k holder parts =>
      refine absurd ?_ (out q)
      rw [holder]
      trivial
    | free early order parts _ =>
      by_cases somebody : ∃ q, (s.place q).Entered
      · exact .held early order p 0 (Function.update_self ..) ⟨parts.calls, parts.nodup,
          through_update parts.through (by rw [place]; exact Place.noConfusion) Place.noConfusion,
          fun _ => parts.opened somebody⟩
      · -- All that has been printed is from before the lock.
        have closed := Parts.closed program somebody s.calls
        refine .held s.calls [] p 0 (Function.update_self ..) ⟨closed.calls, closed.nodup,
          through_update closed.through (by rw [place]; exact Place.noConfusion) Place.noConfusion, ?_⟩
        intro _ q
        have late := (reached _ (barrier_last ends) q).2
        rw [sound.own q]
        cases here : s.place q with
        | opening k =>
          rw [here] at late
          exact calls_last ends late q
        | inside k | through =>
          refine absurd ⟨q, ?_⟩ somebody
          rw [here]
          trivial

theorem body_step (sound : Sound program home s) (returned : s.locking.lock.stage p = .returned)
    {k : Nat} {call : Call} (place : s.place p = .inside k) (here : program.body[k]? = some call)
    {rng : Usize} (small : rng.toNat < u32Max.toNat) :
    Sound program home ⟨s.locking, Function.update s.place p (.inside (k + 1)),
      Function.update s.rng p rng, s.calls ++ [call].map fun call => (p, call)⟩ := by
  have holds : (s.place p).Inside := by rw [place]; trivial
  have live : s.locking.guards p = 1 := by rw [sound.guards p, if_pos holds]
  refine sound.move returned (.inside (k + 1)) sound.locking rfl
    (List.getElem?_eq_some_iff.mp here).1 (fun _ _ => trivial) ?_ ?_ small ?_ ?_
  · intro k' _ barrier
    refine sound.together p k' ?_ barrier
    rw [place]
    trivial
  · exact (Function.update_eq_self_iff.mpr live.symm).symm
  · rw [place, Place.calls, Place.calls, List.take_add_one, here, List.append_assoc]
    rfl
  · cases sound.blocks with
    | free early order parts out => exact absurd holds (out p)
    | held early order q k' holder parts =>
      obtain rfl : q = p := sound.alone holds (by rw [holder]; trivial)
      obtain rfl : k' = k := Place.inside.inj (holder.symm.trans place)
      refine .held early order q (k' + 1) (Function.update_self ..) ⟨?_, parts.nodup, ?_, ?_⟩
      · rw [parts.calls, List.take_add_one, here, List.map_append, ← List.append_assoc]
        rfl
      · exact through_update parts.through (by rw [place]; exact Place.noConfusion) Place.noConfusion
      · exact fun _ => parts.opened ⟨q, by rw [place]; trivial⟩

theorem drop_step (sound : Sound program home s) (returned : s.locking.lock.stage p = .returned)
    (place : s.place p = .inside program.body.length) :
    Sound program home ⟨Locking.next home s.locking (.clearLock p), Function.update s.place p .through,
      Function.update s.rng p (s.rng p), s.calls ++ [].map fun call => (p, call)⟩ := by
  have holds : (s.place p).Inside := by rw [place]; trivial
  have live : s.locking.guards p = 1 := by rw [sound.guards p, if_pos holds]
  refine sound.move returned .through (sound.locking.clearLock (by omega)) rfl trivial
    (fun _ _ => trivial) ?_ ?_ (sound.small p) ?_ ?_
  · intro k' _ barrier
    refine sound.together p k' ?_ barrier
    rw [place]
    trivial
  · rw [Locking.next, live]
    rfl
  · rw [place, Place.calls, Place.calls, List.take_length, List.append_nil]
  · rw [List.map_nil, List.append_nil]
    cases sound.blocks with
    | free early order parts out => exact absurd holds (out p)
    | held early order q k holder parts =>
      obtain rfl : q = p := sound.alone holds (by rw [holder]; trivial)
      obtain rfl : k = program.body.length := Place.inside.inj (holder.symm.trans place)
      have fresh : q ∉ order := by
        rw [parts.through q, place]
        exact Place.noConfusion
      refine .free early (order ++ [q]) ⟨?_, ?_, ?_, ?_⟩ ?_
      · rw [parts.calls, List.take_length, List.flatMap_append, List.append_nil, List.append_assoc]
        simp [block]
      · exact List.nodup_append.mpr ⟨parts.nodup, List.nodup_singleton q,
          fun r member r' own => by
            obtain rfl := List.mem_singleton.mp own
            rintro rfl
            exact fresh member⟩
      · intro r
        rw [List.mem_append, List.mem_singleton, parts.through r]
        by_cases same : r = q
        · subst same
          simp
        · simp [same]
      · exact fun _ => parts.opened ⟨q, by rw [place]; trivial⟩
      · intro r inside
        by_cases same : r = q
        · subst same
          rw [Function.update_self] at inside
          exact inside
        · rw [Function.update_of_ne same] at inside
          exact same (sound.alone holds inside)

theorem construct_step (sound : Sound program home s)
    (ends : program.opening.getLast? = some .barrierAll) {e : Locking.Event P}
    (fires : Locking.enabled home s.locking e)
    (builds : e = .allocate p ∨ e = .allocated p ∨ e = .store p) :
    Sound program home { s with locking := Locking.next home s.locking e } := by
  have unheld : Locking.HomeUnheld home s.locking e := by
    rcases builds with rfl | rfl | rfl
    · trivial
    · trivial
    rintro rfl q
    rw [sound.guards q]
    refine if_neg fun inside => ?_
    -- A PE which holds the lock has met this one at a barrier behind the constructor.
    have met := (sound.reached_last ends (p := q) (q := p) (by
      cases place : s.place q with
      | opening k | through => rw [place] at inside; exact inside.elim
      | inside k => trivial)).1
    have storing : (s.locking.lock.stage p).IsStoring := fires
    rw [met] at storing
    exact storing
  have keeps := Locking.Sound.step s.locking e sound.locking ⟨fires, unheld⟩
  rcases builds with rfl | rfl | rfl
  · have outside : s.locking.lock.stage p = .outside := fires
    refine sound.construct (p := p) keeps rfl (by rw [outside]; exact Stage.noConfusion) ?_
    exact fun q other => Function.update_of_ne other ..
  · have arrived : s.locking.lock.stage p = .arrived := fires.1
    refine sound.construct (p := p) keeps rfl (by rw [arrived]; exact Stage.noConfusion) ?_
    exact fun q other => Function.update_of_ne other ..
  · have storing : (s.locking.lock.stage p).IsStoring := fires
    cases stage : s.locking.lock.stage p with
    | outside | arrived | returned =>
      rw [stage] at storing
      exact storing.elim
    | storing k =>
      refine sound.construct (p := p) keeps rfl (by rw [stage]; exact Stage.noConfusion) ?_
      intro q other
      simp only [Locking.next, Object.next, stage]
      exact Function.update_of_ne other ..

theorem next_step {build : Build} {l : Option (Locking.Event P)} {rng : Usize} {calls : List Call}
    (locks : s.locks program (.step p) = l) (prints : s.prints program p = calls)
    (draws : s.draw program build p = .ok rng) :
    next program build home s (.step p) = ⟨s.lock home l,
      Function.update s.place p ((s.place p).next program), Function.update s.rng p rng,
      s.calls ++ calls.map fun call => (p, call)⟩ := by
  simp only [next, locks, draws, prints]

theorem pe_step (build : Build) (sound : Sound program home s)
    (ends : program.opening.getLast? = some .barrierAll)
    (fires : enabled program build home s (.step p)) :
    Sound program home (next program build home s (.step p)) := by
  obtain ⟨⟨returned, _, _, met⟩, granted⟩ := fires
  obtain ⟨rng, draws, small⟩ := draw_ok build (s.prints program p) (sound.small p)
  have within := sound.within p
  cases place : s.place p with
  | opening k =>
    rw [place] at within
    by_cases more : k < program.opening.length
    · have here := List.getElem?_eq_getElem more
      have locks : s.locks program (.step p) = none := by simp only [State.locks, place, if_pos more]
      have prints : s.prints program p = Stmt.calls p program.opening[k] := by
        simp only [State.prints, place, Place.stmt, here, Option.toList_some, List.flatMap_singleton]
      rw [next_step locks prints draws, place, Place.next, if_pos more]
      refine sound.opening_step ends returned place here (fun barrier => ?_) small
      have meets := met (by rw [place, Place.stmt, here, barrier])
      rwa [place] at meets
    · obtain rfl : k = program.opening.length := Nat.le_antisymm within (Nat.le_of_not_lt more)
      have locks : s.locks program (.step p) = some (.setLock p) := by
        simp only [State.locks, place, if_neg more]
      have prints : s.prints program p = [] := by
        simp [State.prints, place, Place.stmt]
      rw [prints] at draws
      obtain rfl := Except.ok.inj draws
      rw [next_step locks prints (by rw [State.draw, prints]; rfl), place, Place.next, if_neg more]
      rw [locks] at granted
      exact sound.lock_step ends returned place granted.2
  | inside k =>
    rw [place] at within
    by_cases more : k < program.body.length
    · have here := List.getElem?_eq_getElem more
      have locks : s.locks program (.step p) = none := by simp only [State.locks, place, if_pos more]
      have prints : s.prints program p = [program.body[k]] := by
        simp only [State.prints, place, Place.stmt, here, Option.map_some, Option.toList_some,
          List.flatMap_singleton, Stmt.calls]
      rw [next_step locks prints draws, place, Place.next, if_pos more]
      exact sound.body_step returned place here small
    · obtain rfl : k = program.body.length := Nat.le_antisymm within (Nat.le_of_not_lt more)
      have locks : s.locks program (.step p) = some (.clearLock p) := by
        simp only [State.locks, place, if_neg more]
      have prints : s.prints program p = [] := by
        simp [State.prints, place, Place.stmt]
      rw [prints] at draws
      obtain rfl := Except.ok.inj draws
      rw [next_step locks prints (by rw [State.draw, prints]; rfl), place, Place.next, if_neg more]
      exact sound.drop_step returned place
  | through =>
    exact absurd place ‹_›

theorem step (build : Build) (ends : program.opening.getLast? = some .barrierAll) (s : State P)
    (e : Event P) (sound : Sound program home s) (fires : (machine program build home).enabled s e) :
    Sound program home ((machine program build home).next s e) := by
  cases e with
  | allocate p => exact sound.construct_step (e := .allocate p) ends fires.2 (.inl rfl)
  | allocated p => exact sound.construct_step (e := .allocated p) ends fires.2 (.inr (.inl rfl))
  | store p => exact sound.construct_step (e := .store p) ends fires.2 (.inr (.inr rfl))
  | step p => exact sound.pe_step build ends fires

theorem start (program : Program) (home : Fin P) (mem : Fin P → Nat → LockWord P) :
    Sound program home (start mem) := by
  have nobody : ¬ ∃ q, ((LockedPrints.start mem).place q).Entered := fun ⟨_, entered⟩ => entered
  refine ⟨Locking.Sound.start mem, fun _ _ => rfl, fun _ => Nat.zero_le _, ?_, fun _ => rfl, ?_,
    fun _ => rfl, .free [] [] (Parts.closed program nobody []) fun _ => id⟩
  · intro p k past
    exact absurd past (Nat.not_lt_zero k)
  · intro p
    show (0xDEADBEEF : Usize).toNat < u32Max.toNat
    decide

theorem run {build : Build} {mem : Fin P → Nat → LockWord P} {events : List (Event P)}
    (ends : program.opening.getLast? = some .barrierAll)
    (admitted : (machine program build home).Admits (LockedPrints.start mem) events) :
    Sound program home ((machine program build home).after (LockedPrints.start mem) events) :=
  Machine.invariant _ (step build ends) (start program home mem) admitted

theorem draws (build : Build) (sound : Sound program home s) (p : Fin P) :
    (s.draw program build p).isOk := by
  obtain ⟨rng, draws, _⟩ := draw_ok build (s.prints program p) (sound.small p)
  rw [State.draw, draws]
  rfl

/-! ### Runs end -/

/-- Where nothing can happen any more everybody is through. -/
theorem finished {build : Build} (sound : Sound program home s)
    (stuck : ∀ e, ¬ enabled program build home s e) (p : Fin P) : s.place p = .through := by
  have outside (q : Fin P) : s.locking.lock.stage q ≠ .outside :=
    fun outside => stuck (.allocate q) ⟨trivial, outside⟩
  have returned (q : Fin P) : s.locking.lock.stage q = .returned := by
    cases stage : s.locking.lock.stage q with
    | outside => exact absurd stage (outside q)
    | arrived => exact absurd ⟨trivial, stage, outside⟩ (stuck (.allocated q))
    | storing k =>
      refine absurd ⟨trivial, ?_⟩ (stuck (.store q))
      show (s.locking.lock.stage q).IsStoring
      rw [stage]
      trivial
    | returned => rfl
  have out (q : Fin P) (k : Nat) : s.place q ≠ .inside k := by
    intro place
    have holds : (s.place q).Inside := by rw [place]; trivial
    have live := sound.guards q
    rw [if_pos holds] at live
    refine stuck (.step q) ⟨⟨returned q, ?_, sound.draws build q, ?_⟩, ?_⟩
    · rw [place]
      exact Place.noConfusion
    · intro barrier
      rw [place, Place.stmt] at barrier
      obtain ⟨_, _, isBarrier⟩ := Option.map_eq_some_iff.mp barrier
      cases isBarrier
    · simp only [State.locks, place]
      split
      · trivial
      · exact Nat.lt_of_lt_of_eq Nat.zero_lt_one live.symm
  have free : s.locking.word home = .free := by
    cases sound.locking.agrees with
    | free isFree _ => exact isFree
    | unstored early _ => exact absurd (returned home) early
    | held q _ one =>
      have live := sound.guards q
      rw [one, Pi.single_eq_same] at live
      cases place : s.place q with
      | inside k => exact absurd place (out q k)
      | opening k | through =>
        rw [place] at live
        cases live
  have nobody (q : Fin P) (k : Nat) : s.place q ≠ .opening k := by
    intro place
    have somebody : ∃ k q, s.place q = .opening k := ⟨k, q, place⟩
    classical
    obtain ⟨q, place⟩ := Nat.find_spec somebody
    -- Nobody is behind the one which is least far.
    have met (r : Fin P) : s.Reached (Nat.find somebody) r := by
      refine ⟨returned r, ?_⟩
      cases here : s.place r with
      | opening k' => exact Nat.find_min' somebody ⟨r, here⟩
      | inside _ | through => trivial
    refine stuck (.step q) ⟨⟨returned q, ?_, sound.draws build q, ?_⟩, ?_⟩
    · rw [place]
      exact Place.noConfusion
    · rw [place]
      exact fun _ => met
    · simp only [State.locks, place]
      split
      · trivial
      · exact ⟨returned q, free⟩
  cases place : s.place p with
  | opening k => exact absurd place (nobody p k)
  | inside k => exact absurd place (out p k)
  | through => rfl

end Sound

def stageCost : Stage → Nat
  | .outside => 3
  | .arrived => 2
  | .storing _ => 1
  | .returned => 0

def Place.cost (program : Program) : Place → Nat
  | .opening k => program.opening.length - k + program.body.length + 2
  | .inside k => program.body.length - k + 1
  | .through => 0

def State.cost (program : Program) (s : State P) : Nat :=
  ∑ p, stageCost (s.locking.lock.stage p) + ∑ p, (s.place p).cost program

theorem Place.cost_next (program : Program) {place : Place} (going : place ≠ .through) :
    (place.next program).cost program < place.cost program := by
  cases place with
  | opening k =>
    simp only [Place.next]
    split <;> simp only [Place.cost] <;> omega
  | inside k =>
    simp only [Place.next]
    split <;> simp only [Place.cost] <;> omega
  | through => exact absurd rfl going

theorem cost_construct {s' : State P} (new : Stage) (place : s'.place = s.place)
    (stage : s'.locking.lock.stage = Function.update s.locking.lock.stage p new)
    (less : stageCost new < stageCost (s.locking.lock.stage p)) : s'.cost program < s.cost program := by
  have sum := Phases.sum_update (fun _ stage => stageCost stage) s.locking.lock.stage p new
  simp only [State.cost, place, stage]
  omega

theorem cost_next {build : Build} (sound : Sound program home s) (e : Event P)
    (fires : enabled program build home s e) :
    (next program build home s e).cost program < s.cost program := by
  cases e with
  | allocate p =>
    have outside : s.locking.lock.stage p = .outside := fires.2
    refine cost_construct (p := p) .arrived rfl rfl ?_
    rw [outside]
    decide
  | allocated p =>
    have arrived : s.locking.lock.stage p = .arrived := fires.2.1
    refine cost_construct (p := p) (.storing 0) rfl rfl ?_
    rw [arrived]
    decide
  | store p =>
    have storing : (s.locking.lock.stage p).IsStoring := fires.2
    cases stage : s.locking.lock.stage p with
    | outside | arrived | returned =>
      rw [stage] at storing
      exact storing.elim
    | storing k =>
      obtain rfl := sound.locking.single p k stage
      refine cost_construct (p := p) .returned rfl ?_ ?_
      · simp only [next, State.locks, State.lock, Locking.next, Object.next, stage]
        rfl
      · rw [stage]
        decide
  | step p =>
    have going : s.place p ≠ .through := fires.1.2.1
    have stages : (s.lock home (s.locks program (.step p))).lock.stage = s.locking.lock.stage := by
      simp only [State.locks]
      split
      · split <;> rfl
      · split <;> rfl
      · rfl
    have sum := Phases.sum_update (fun _ place => place.cost program) s.place p
      ((s.place p).next program)
    have less := Place.cost_next program going
    simp only [State.cost, next, stages]
    omega

/-- Statements, calls, the lock and its construction. -/
def Program.size (program : Program) (P : Nat) : Nat :=
  P * (program.opening.length + program.body.length + 5)

theorem length_le_size {build : Build} {mem : Fin P → Nat → LockWord P} {events : List (Event P)}
    (ends : program.opening.getLast? = some .barrierAll)
    (admitted : (machine program build home).Admits (start mem) events) :
    events.length ≤ program.size P := by
  have costs : (start mem).cost program = program.size P := by
    simp only [State.cost, start, Locking.start, Object.start, stageCost, Place.cost, Finset.sum_const,
      Finset.card_univ, Fintype.card_fin, smul_eq_mul, Program.size, ← Nat.mul_add]
    congr 1
    omega
  rw [← costs]
  have step (s : State P) (e : Event P) (sound : Sound program home s)
      (fires : (machine program build home).enabled s e) :
      Sound program home ((machine program build home).next s e) ∧
        ((machine program build home).next s e).cost program < s.cost program :=
    ⟨sound.step build ends s e fires, cost_next sound e fires⟩
  exact Machine.length_le _ step (Sound.start program home mem) admitted

/-- Everybody's block, one after the other, behind what was printed before. -/
theorem Blocks.finished {place : Fin P → Place} {calls : List (Fin P × Call)}
    (blocks : Blocks program place calls) (through : ∀ p, place p = .through) :
    ∃ (early : List (Fin P × Call)) (order : List (Fin P)), order.Perm (List.finRange P) ∧
      calls = early ++ order.flatMap (block program) := by
  cases blocks with
  | free early order parts out =>
    refine ⟨early, order, ?_, by rw [parts.calls, List.append_nil]⟩
    refine (List.perm_ext_iff_of_nodup parts.nodup (List.nodup_finRange P)).mpr fun p => ?_
    exact iff_of_true ((parts.through p).mpr (through p)) (List.mem_finRange p)
  | held early order p k holder parts =>
    rw [through p] at holder
    cases holder

/-- The lock is held by one PE at a time, no PE panics, each prints what its statements say, and
what it prints under the lock stands together. -/
structure Prints (build : Build) (home : Fin P) (s : State P) (length : Nat) : Prop where
  excludes : Locking.Excludes s.locking
  draws : ∀ p, (s.draw main build p).isOk
  own : ∀ p, said s.calls p = (s.place p).calls main p
  blocks : Blocks main s.place s.calls
  bounded : length ≤ main.size P
  completes : (∀ e, ¬ enabled main build home s e) → (∀ p, s.place p = .through) ∧
    ∃ (early : List (Fin P × Call)) (order : List (Fin P)), order.Perm (List.finRange P) ∧
      s.calls = early ++ order.flatMap (block main)

end LockedPrints

/-- The barriers of the program keep the initial store of the home PE away from the lock. -/
theorem lock_prints (build : Build) (home : Fin P) (mem : Fin P → Nat → LockWord P)
    (events : List (LockedPrints.Event P))
    (run : (LockedPrints.machine LockedPrints.main build home).Admits (LockedPrints.start mem) events) :
    LockedPrints.Prints build home ((LockedPrints.machine LockedPrints.main build home).after
      (LockedPrints.start mem) events) events.length := by
  have ends : LockedPrints.main.opening.getLast? = some .barrierAll := by decide
  have sound := LockedPrints.Sound.run ends run
  refine ⟨sound.locking.excludes, sound.draws build, sound.own, sound.blocks,
    LockedPrints.length_le_size ends run, fun stuck => ⟨sound.finished stuck, ?_⟩⟩
  exact sound.blocks.finished (sound.finished stuck)

/-- Two PEs in turn, until both want the lock. PE 1 gets it and goes to its end, and after it PE 0. -/
theorem lock_prints_two :
    LockedPrints.Prints .debug (0 : Fin 2) ((LockedPrints.machine LockedPrints.main .debug 0).after
      (LockedPrints.start fun _ _ => .other)
      ([.allocate 0, .allocate 1, .allocated 0, .allocated 1, .store 1, .store 0] ++
        (List.replicate 25 [.step 0, .step 1]).flatten ++ List.replicate 23 (.step 1) ++
          List.replicate 23 (.step 0))) 102 :=
  lock_prints .debug 0 _ _ (by decide +kernel)

end OpenShmem
