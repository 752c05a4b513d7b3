import Mathlib.Data.Fin.VecNotation
import OpenShmem.Machine
import OpenShmem.Nbi

/-! Runs of one PE's non-blocking gets: calls on any target, deliveries in any order,
stores of other code, and calls of `quiet` on values of any nesting. -/
namespace OpenShmem

open Overlay

variable {P : Nat} {T : Type} [Pod T]

/-- A pending operation, with the call which returned it and the memory `found` then. -/
inductive Returned (P : Nat) : Type 1 where
  | op {T : Type} [Pod T] (self : PEReference P) (shbox : Shbox T) (idx : Usize)
    (pending : PendingNbiOp T) (found : Fin P → Nat → UInt8)
  | slice {T : Type} [Pod T] (self : PEReference P) (shbox : Shbox T) (range : RangeBounds)
    (pending : PendingNbiSliceOp T) (found : Fin P → Nat → UInt8)

namespace Returned

def inner : Returned P → Nat
  | @Returned.op _ _ _ _ _ _ pending _ => pending.inner
  | @Returned.slice _ _ _ _ _ _ pending _ => pending.inner

def found : Returned P → Fin P → Nat → UInt8
  | @Returned.op _ _ _ _ _ _ _ found => found
  | @Returned.slice _ _ _ _ _ _ _ found => found

/-- The array the operation reads from is the same in both memories. -/
def SameArray (mem mem' : Fin P → Nat → UInt8) : Returned P → Prop
  | @Returned.op _ _ _ self shbox _ _ _ =>
    shbox.contents (mem' self.target) = shbox.contents (mem self.target)
  | @Returned.slice _ _ _ self shbox _ _ _ =>
    shbox.contents (mem' self.target) = shbox.contents (mem self.target)

/-- A slice was asked for as `a..b`, with `a < b` and `b` inside the array. -/
def Valid : Returned P → Prop
  | @Returned.op _ _ _ _ _ _ _ _ => True
  | @Returned.slice _ _ _ _ shbox range _ _ =>
    ∃ a b, range = .span a b ∧ a.toNat < b.toNat ∧ b.toNat ≤ shbox.len.toNat

/-- The get a returned operation stands for. -/
def Asks (build : Build) (get : Get P) : Returned P → Prop
  | @Returned.op _ T _ self shbox idx pending _ => idx.toNat < shbox.len.toNat ∧
    get = ⟨pending.inner, self.target, shbox.offset idx, Pod.size T⟩
  | @Returned.slice _ T _ self shbox range pending _ =>
    ∃ start, resolve build range shbox.len = .ok (start, pending.len) ∧
      get = ⟨pending.inner, self.target, shbox.offset start, pending.len.toNat * Pod.size T⟩

end Returned

/-- `returned` records the calls which returned; a call which panics unwinds. -/
structure Running (P : Nat) : Type 1 where
  world : World P
  returned : List (Returned P)
  unwinding : Bool

namespace Nbis

/-- The caller still owns every pending operation in the value, each of them once. -/
structure Owned {A : Type} (nbis : Nbis A) (w : World P) : Prop where
  nodup : nbis.blocks.Nodup
  pending : ∀ op ∈ nbis.ops, (w.block op.1).owner = some op.2

end Nbis

namespace Running

inductive Event (P : Nat) : Type 1 where
  | getSingleNbi {T : Type} [Pod T] (self : PEReference P) (shbox : Shbox T) (idx : Usize)
  | readNbi {T : Type} [Pod T] (self : PEReference P) (shbox : Shbox T) (range : RangeBounds)
  | deliver (k : Nat)
  | quiet (order : List Nat) {A : Type} (nbis : Nbis A)
  | dropBox (d : Nat)
  | catchUnwind
  | store (mem : Fin P → Nat → UInt8)

def enabled (s : Running P) : Event P → Prop
  | @Event.getSingleNbi _ _ _ _ _ _ | @Event.readNbi _ _ _ _ _ _ => s.unwinding = false
  | .deliver k => k < s.world.gets.length
  | .quiet _ nbis => s.unwinding = false ∧ nbis.Owned s.world
  | .dropBox d => (s.world.block d).owner = some .boxed
  | .catchUnwind => s.unwinding = true
  | .store _ => True

/-- The state after a computation, which keeps what it returned. -/
def settle {α : Type} (s : Running P) (keep : α → List (Returned P)) : Outcome P α → Running P
  | .ok a w => { s with world := w, returned := s.returned ++ keep a }
  | .panic _ w => { s with world := w, unwinding := true }

def next (build : Build) (s : Running P) : Event P → Running P
  | @Event.getSingleNbi _ _ _ self shbox idx =>
    s.settle (fun pending => [.op self shbox idx pending s.world.mem])
      ((self.getSingleNbi shbox idx).run s.world)
  | @Event.readNbi _ _ _ self shbox range =>
    s.settle (fun pending => [.slice self shbox range pending s.world.mem])
      ((self.readNbi build shbox range).run s.world)
  | .deliver k => { s with world := s.world.deliverGet k }
  | .quiet order nbis => s.settle (fun _ => []) ((ctxQuiet order nbis).run s.world)
  | .dropBox d => s.settle (fun _ => []) ((dropBox d).run s.world)
  | .catchUnwind => { s with unwinding := false }
  | .store mem => { s with world := { s.world with mem } }

def machine (P : Nat) (build : Build) : Machine (Running P) (Event P) := ⟨enabled, next build⟩

def start (mem : Fin P → Nat → UInt8) (garbage : Nat → UInt8) : Running P :=
  ⟨{ World.blank P with mem, garbage }, [], false⟩

/-- A store leaves the arrays alone which operations still in flight read from. -/
def Undisturbed (s : Running P) : Event P → Prop
  | .store mem => ∀ r ∈ s.returned, (∃ get ∈ s.world.gets, get.dest = r.inner) →
    r.SameArray s.world.mem mem
  | _ => True

/-- `t` is the element the operation was asked for. -/
def RequestedOp (returned : List (Returned P)) (pending : PendingNbiOp T) (t : T) : Prop :=
  ∃ self shbox idx found, Returned.op self shbox idx pending found ∈ returned ∧
    (shbox.contents (found self.target))[idx.toNat]? = some t

/-- `ts` are the elements `a..b` the operation was asked for. -/
def RequestedSlice (returned : List (Returned P)) (pending : PendingNbiSliceOp T) (ts : List T) :
    Prop :=
  ∃ self, ∃ shbox : Shbox T, ∃ a b found, a.toNat < b.toNat ∧ b.toNat ≤ shbox.len.toNat ∧
    Returned.slice self shbox (.span a b) pending found ∈ returned ∧
    ts = ((shbox.contents (found self.target)).drop a.toNat).take (b.toNat - a.toNat)

/-- A value built from returned operations, and the remote data it was built to fetch. -/
inductive Built (returned : List (Returned P)) : {A : Type} → Nbis A → A → Prop
  | op {T : Type} [Pod T] {pending : PendingNbiOp T} {t : T}
    (requested : RequestedOp returned pending t) : Built returned (.op pending) t
  | slice {T : Type} [Pod T] {pending : PendingNbiSliceOp T} {ts : List T}
    (requested : RequestedSlice returned pending ts) : Built returned (.slice pending) ts
  | vecSlice {T : Type} [Pod T] {pending : List (PendingNbiSliceOp T)} {parts : List (List T)}
    (requested : List.Forall₂ (RequestedSlice returned) pending parts) :
    Built returned (.vecSlice pending) parts.flatten
  | vecOp {T : Type} [Pod T] {pending : List (PendingNbiOp T)} {ts : List T}
    (requested : List.Forall₂ (RequestedOp returned) pending ts) : Built returned (.vecOp pending) ts
  | unit : Built returned .unit ()
  | tuple {k : Nat} {arity : 2 ≤ k ∧ k ≤ 8} {A : Fin k → Type} {components : ∀ i, Nbis (A i)}
    {values : ∀ i, A i} (built : ∀ i, Built returned (components i) (values i)) :
    Built returned (.tuple arity components) values

end Running

/-! ### Gets and their blocks -/
section

variable {w next : World P} {get : Get P} {cells : List UInt8} {ds : List Nat}

/-- The get is still to fetch `cells` or has done so, and no other get goes to its block. -/
structure Carries (w : World P) (get : Get P) (cells : List UInt8) : Prop where
  block : ∃ block, w.heap[get.dest]? = some block ∧ block.bytes.length = get.nbytes ∧
    (get ∉ w.gets → block.bytes = cells)
  steady : get ∈ w.gets → window (w.mem get.pe) get.remote get.nbytes = cells
  alone : ∀ other ∈ w.gets, other.dest = get.dest → other = get

def GetsBounded (w : World P) : Prop := ∀ get ∈ w.gets, get.dest < w.heap.length

theorem Carries.requested (carries : Carries w get cells) (owner : Owner) (pe : Fin P)
    (remote nbytes : Nat) : Carries (PEReference.requested w owner pe remote nbytes) get cells := by
  obtain ⟨block, found, length, landed⟩ := carries.block
  have bound := (List.getElem?_eq_some_iff.mp found).1
  have older {other : Get P} (member : other ∈ (PEReference.requested w owner pe remote nbytes).gets)
      (same : other.dest = get.dest) : other ∈ w.gets := by
    rcases List.mem_append.mp member with older | newest
    · exact older
    · obtain rfl := List.mem_singleton.mp newest
      exact absurd same (Nat.ne_of_gt bound)
  refine ⟨⟨block, ?_, length, ?_⟩, ?_, ?_⟩
  · simp only [PEReference.requested, List.getElem?_append_left bound, found]
  · exact fun gone => landed fun flying => gone (List.mem_append_left _ flying)
  · exact fun flying => carries.steady (older flying rfl)
  · exact fun other member same => carries.alone other (older member same) same

theorem carries_new (bounded : GetsBounded w) (owner : Owner) (pe : Fin P) (remote nbytes : Nat) :
    Carries (PEReference.requested w owner pe remote nbytes) ⟨w.heap.length, pe, remote, nbytes⟩
      (window (w.mem pe) remote nbytes) := by
  have flying : (⟨w.heap.length, pe, remote, nbytes⟩ : Get P) ∈
      (PEReference.requested w owner pe remote nbytes).gets := by simp [PEReference.requested]
  refine ⟨⟨_, List.getElem?_concat_length, by simp, absurd flying⟩, fun _ => rfl, ?_⟩
  intro other member same
  rcases List.mem_append.mp member with older | newest
  · exact absurd same (Nat.ne_of_lt (bounded other older))
  · exact List.mem_singleton.mp newest

theorem GetsBounded.requested (bounded : GetsBounded w) (owner : Owner) (pe : Fin P)
    (remote nbytes : Nat) : GetsBounded (PEReference.requested w owner pe remote nbytes) := by
  intro other member
  simp only [PEReference.requested, List.length_append, List.length_singleton]
  rcases List.mem_append.mp member with older | newest
  · exact Nat.lt_succ_of_lt (bounded other older)
  · obtain rfl := List.mem_singleton.mp newest
    exact Nat.lt_succ_self _

theorem GetsBounded.consumed (bounded : GetsBounded w) (consumed : Consumed ds w next) :
    GetsBounded next := by
  intro get flying
  rw [consumed.gets] at flying
  rw [consumed.heap_length]
  exact bounded get flying

theorem Block.receive_bytes (block : Block) (cells : List UInt8)
    (fits : block.bytes.length = cells.length) : (block.receive cells).bytes = cells := by
  simp [Block.receive, fits]

theorem Carries.deliver (carries : Carries w get cells) (k : Nat) :
    Carries (w.deliverGet k) get cells := by
  unfold World.deliverGet
  cases chosen : w.gets[k]? with
  | none => exact carries
  | some arriving =>
    obtain ⟨block, found, length, landed⟩ := carries.block
    have member := List.mem_of_getElem? chosen
    refine ⟨?_, fun flying => carries.steady (List.mem_of_mem_eraseIdx flying),
      fun other member => carries.alone other (List.mem_of_mem_eraseIdx member)⟩
    by_cases same : arriving.dest = get.dest
    · obtain rfl := carries.alone arriving member same
      have received := block.receive_bytes
        (window (w.mem arriving.pe) arriving.remote arriving.nbytes) (by simp [length])
      refine ⟨block.receive (window (w.mem arriving.pe) arriving.remote arriving.nbytes), ?_, ?_, ?_⟩
      · simp [found]
      · rw [received, window_length]
      · exact fun _ => received.trans (carries.steady member)
    · refine ⟨block, by simp [same, found], length, ?_⟩
      intro gone
      apply landed
      intro flying
      obtain ⟨j, hj⟩ := List.mem_iff_getElem?.mp flying
      have different : j ≠ k := by
        rintro rfl
        rw [chosen] at hj
        cases hj
        exact same rfl
      exact gone (List.mem_eraseIdx_iff_getElem?.mpr ⟨j, different, hj⟩)

theorem Carries.consumed (carries : Carries w get cells) (consumed : Consumed ds w next) :
    Carries next get cells := by
  obtain ⟨block, found, length, landed⟩ := carries.block
  have gets : next.gets = w.gets := consumed.gets
  have mem : next.mem = w.mem := by rw [consumed.kept]
  have bytes := congrArg (·[get.dest]?) consumed.bytes
  simp only [List.getElem?_map, found, Option.map_some, Option.map_eq_some_iff] at bytes
  obtain ⟨block', found', same⟩ := bytes
  refine ⟨⟨block', found', by rw [same, length], ?_⟩, ?_, ?_⟩
  · rwa [gets, same]
  · rw [gets, mem]
    exact carries.steady
  · rw [gets]
    exact carries.alone

/-- A store which leaves the get's source alone while it is in flight. -/
theorem Carries.store {mem : Fin P → Nat → UInt8} (carries : Carries w get cells)
    (undisturbed : get ∈ w.gets → window (mem get.pe) get.remote get.nbytes =
      window (w.mem get.pe) get.remote get.nbytes) : Carries { w with mem } get cells :=
  ⟨carries.block, fun flying => (undisturbed flying).trans (carries.steady flying), carries.alone⟩

/-! ### Quiet -/

/-- What every single delivery keeps, `shmem_quiet` keeps. -/
theorem World.quiet_induction (inv : World P → Prop) (step : ∀ w k, inv w → inv (w.deliverGet k))
    (order : List Nat) (initial : inv w) : inv (w.quiet order) := by
  have all {α : Type} (position : α → Nat) (todo : List α) (w : World P) (holds : inv w) :
      inv (todo.foldl (fun w a => w.deliverGet (position a)) w) := by
    induction todo generalizing w with
    | nil => exact holds
    | cons a rest ih => exact ih _ (step w _ holds)
  exact all (fun _ => 0) _ _ (all id order w initial)

theorem deliverGet_first (w : World P) : (w.deliverGet 0).gets = w.gets.tail := by
  unfold World.deliverGet
  cases gets : w.gets with
  | nil => simp [gets]
  | cons get rest => rfl

theorem World.quiet_gets (order : List Nat) (w : World P) : (w.quiet order).gets = [] := by
  have all (todo : List (Get P)) (w : World P) (length : w.gets.length ≤ todo.length) :
      (todo.foldl (fun w _ => w.deliverGet 0) w).gets = [] := by
    induction todo generalizing w with
    | nil => exact List.eq_nil_of_length_eq_zero (Nat.le_zero.mp length)
    | cons get rest ih =>
      apply ih
      rw [deliverGet_first, List.length_tail]
      exact Nat.sub_le_of_le_add length
  exact all _ _ (Nat.le_refl _)

theorem GetsBounded.deliver (bounded : GetsBounded w) (k : Nat) : GetsBounded (w.deliverGet k) := by
  unfold World.deliverGet
  cases chosen : w.gets[k]? with
  | none => exact bounded
  | some arriving =>
    intro other member
    simpa using bounded other (List.mem_of_mem_eraseIdx member)

/-- Everything has arrived, so a buffer holds what its get was to fetch. -/
theorem Carries.arrived (carries : Carries w get cells) (gets : w.gets = []) :
    (w.block get.dest).bytes = cells := by
  obtain ⟨block, found, _, landed⟩ := carries.block
  rw [World.block_some found]
  exact landed (by simp [gets])

end

/-- Memories in which an array is the same agree on every part of it. -/
theorem Shbox.window_part (shbox : Shbox T) {m m' : Nat → UInt8} (start : Usize) (count : Nat)
    (inside : start.toNat + count ≤ shbox.len.toNat) (same : shbox.contents m' = shbox.contents m) :
    window m' (shbox.offset start) (count * Pod.size T) =
      window m (shbox.offset start) (count * Pod.size T) := by
  have part : elements T m' (shbox.offset start) count = elements T m (shbox.offset start) count := by
    rw [Shbox.offset, elements_sub _ _ _ _ _ inside, elements_sub _ _ _ _ _ inside]
    exact congrArg (fun elems => (elems.drop start.toNat).take count) same
  exact window_congr (elements_eq_iff.mp part)

namespace Returned

variable {build : Build} {r : Returned P} {get : Get P} {mem mem' : Fin P → Nat → UInt8}

/-- A valid operation reads a part of its array. -/
theorem SameArray.source (same : r.SameArray mem mem') (valid : r.Valid)
    (asks : r.Asks build get) :
    window (mem' get.pe) get.remote get.nbytes = window (mem get.pe) get.remote get.nbytes := by
  cases r with
  | op self shbox idx pending found =>
    obtain ⟨inside, rfl⟩ := asks
    simpa using shbox.window_part idx 1 inside same
  | slice self shbox range pending found =>
    obtain ⟨a, b, rfl, ordered, inside⟩ := valid
    obtain ⟨start, resolved, rfl⟩ := asks
    obtain ⟨size, opened, size_eq⟩ := resolve_span build ordered inside
    cases resolved.symm.trans opened
    exact shbox.window_part _ _ (by omega) same

theorem Asks.dest (asks : r.Asks build get) : get.dest = r.inner := by
  cases r with
  | op => rw [asks.2]; rfl
  | slice =>
    obtain ⟨start, _, rfl⟩ := asks
    rfl

end Returned

namespace Running

variable {build : Build} {mem : Fin P → Nat → UInt8} {garbage : Nat → UInt8} {s : Running P}

/-- A call leaves a get in flight and the operation which stands for it, or it panics. -/
inductive Called (build : Build) (s : Running P) : Running P → Prop
  | requested (owner : Owner) (pending : owner = .nbiOp ∨ owner = .nbiSliceOp) (pe : Fin P)
    (remote nbytes : Nat) (r : Returned P)
    (asks : r.Asks build ⟨s.world.heap.length, pe, remote, nbytes⟩)
    (found : r.found = s.world.mem) : Called build s { s with
      world := PEReference.requested s.world owner pe remote nbytes
      returned := s.returned ++ [r] }
  | panicked : Called build s { s with unwinding := true }

theorem called_getSingleNbi (build : Build) (s : Running P) (self : PEReference P)
    (shbox : Shbox T) (idx : Usize) : Called build s (s.next build (.getSingleNbi self shbox idx)) := by
  by_cases inside : idx.toNat < shbox.len.toNat
  · simp only [next, PEReference.getSingleNbi_resolved self inside, settle]
    exact .requested _ (.inl rfl) _ _ _ _ ⟨inside, rfl⟩ rfl
  · simp only [next, PEReference.getSingleNbi_rejected self inside, settle]
    exact .panicked

theorem called_readNbi (build : Build) (s : Running P) (self : PEReference P) (shbox : Shbox T)
    (range : RangeBounds) : Called build s (s.next build (.readNbi self shbox range)) := by
  rcases resolve_cases build range shbox.len (Pod.size T) with
    ⟨start, count, accepted, fits⟩ | never
  · simp only [next, PEReference.readNbi_resolved self accepted fits, settle]
    exact .requested _ (.inr rfl) _ _ _ _ ⟨start, accepted, rfl⟩ rfl
  · obtain ⟨p, result⟩ := PEReference.readNbi_rejected self (w := s.world) never
    simp only [next, result, settle]
    exact .panicked

/-- What every run keeps. -/
structure Sound (build : Build) (s : Running P) : Prop where
  bounded : GetsBounded s.world
  carried : ∀ r ∈ s.returned, r.Valid → ∃ get, r.Asks build get ∧
    Carries s.world get (window (r.found get.pe) get.remote get.nbytes)

theorem Sound.start : Sound build (start mem garbage) := by
  refine ⟨?_, ?_⟩
  · intro get member
    cases member
  · intro r member
    cases member

theorem Sound.called {after : Running P} (sound : Sound build s) (called : Called build s after) :
    Sound build after := by
  cases called with
  | panicked => exact ⟨sound.bounded, sound.carried⟩
  | requested owner _ pe remote nbytes r asks found =>
    refine ⟨sound.bounded.requested owner pe remote nbytes, ?_⟩
    intro r' member valid
    rcases List.mem_append.mp member with older | newest
    · obtain ⟨get, asked, carries⟩ := sound.carried r' older valid
      exact ⟨get, asked, carries.requested owner pe remote nbytes⟩
    · obtain rfl := List.mem_singleton.mp newest
      rw [found]
      exact ⟨_, asks, carries_new sound.bounded owner pe remote nbytes⟩

/-- A step of the world which only moves gets along and changes owners. -/
theorem Sound.world {w : World P} (sound : Sound build s) (bounded : GetsBounded w)
    (carries : ∀ get cells, Carries s.world get cells → Carries w get cells) :
    Sound build { s with world := w } := by
  refine ⟨bounded, ?_⟩
  intro r member valid
  obtain ⟨get, asked, carried⟩ := sound.carried r member valid
  exact ⟨get, asked, carries _ _ carried⟩

theorem Sound.deliver (sound : Sound build s) (k : Nat) :
    Sound build { s with world := s.world.deliverGet k } :=
  sound.world (sound.bounded.deliver k) fun _ _ carries => carries.deliver k

theorem Sound.shmemQuiet (sound : Sound build s) (order : List Nat) :
    Sound build { s with world := s.world.quiet order } :=
  World.quiet_induction (fun w => Sound build { s with world := w })
    (fun w k (sound : Sound build { s with world := w }) => sound.deliver k) order sound

theorem Sound.consumed {w : World P} {ds : List Nat} (sound : Sound build s)
    (consumed : Consumed ds s.world w) : Sound build { s with world := w } :=
  sound.world (sound.bounded.consumed consumed) fun _ _ carries => carries.consumed consumed

theorem Sound.store (sound : Sound build s) (undisturbed : s.Undisturbed (.store mem)) :
    Sound build { s with world := { s.world with mem } } := by
  refine ⟨sound.bounded, ?_⟩
  intro r member valid
  obtain ⟨get, asked, carries⟩ := sound.carried r member valid
  refine ⟨get, asked, carries.store fun flying => ?_⟩
  exact (undisturbed r member ⟨get, flying, asked.dest⟩).source valid asked

/-- A call of `quiet` returns what the buffers hold once everything has arrived. -/
theorem ctxQuiet_run {A : Type} (order : List Nat) (nbis : Nbis A) (w : World P)
    (nodup : nbis.blocks.Nodup) :
    ∃ next, (ctxQuiet order nbis).run w = .ok (nbis.held (w.quiet order)) next ∧
      Consumed nbis.blocks (w.quiet order) next :=
  nbis.afterQuiet_takes nodup (w.quiet order) fun _ _ => rfl

theorem Sound.step (s : Running P) (e : Event P) (sound : Sound build s)
    (fires : ((machine P build).under Undisturbed).enabled s e) :
    Sound build ((machine P build).next s e) := by
  obtain ⟨fires, undisturbed⟩ := fires
  cases e with
  | getSingleNbi self shbox idx => exact sound.called (called_getSingleNbi build s self shbox idx)
  | readNbi self shbox range => exact sound.called (called_readNbi build s self shbox range)
  | deliver k => exact sound.deliver k
  | quiet order nbis =>
    obtain ⟨w, result, consumed⟩ := ctxQuiet_run order nbis s.world fires.2.nodup
    simp only [machine, next, result, settle, List.append_nil]
    exact (sound.shmemQuiet order).consumed consumed
  | dropBox d =>
    have consumed : Consumed [d] s.world (s.world.modifyBlock d Block.free) :=
      .modifyBlock Block.free (fun _ => rfl) (fun _ => by simp [Block.free]) _ _
    simpa [machine, next, settle, OpenShmem.dropBox, useBlock] using sound.consumed consumed
  | catchUnwind => exact ⟨sound.bounded, sound.carried⟩
  | store mem => exact sound.store undisturbed

/-! ### What a value holds -/

/-- Once everything has arrived, a returned operation can be told from its call. -/
theorem Sound.arrived {r : Returned P} (sound : Sound build s) (gets : s.world.gets = [])
    (member : r ∈ s.returned) (valid : r.Valid) : ∃ get, r.Asks build get ∧
      (s.world.block r.inner).bytes = window (r.found get.pe) get.remote get.nbytes := by
  obtain ⟨get, asked, carries⟩ := sound.carried r member valid
  exact ⟨get, asked, by rw [← asked.dest, carries.arrived gets]⟩

theorem RequestedOp.held {pending : PendingNbiOp T} {t : T}
    (requested : RequestedOp s.returned pending t) (sound : Sound build s)
    (gets : s.world.gets = []) : Pod.ofBytes (s.world.block pending.inner).bytes = t := by
  obtain ⟨self, shbox, idx, found, member, value⟩ := requested
  obtain ⟨get, ⟨_, rfl⟩, bytes⟩ := sound.arrived gets member trivial
  obtain ⟨_, rfl⟩ := List.getElem?_eq_some_iff.mp value
  have bytes : (s.world.block pending.inner).bytes = _ := bytes
  rw [bytes]
  simp only [Shbox.contents, elements_getElem]
  rfl

theorem RequestedSlice.held {pending : PendingNbiSliceOp T} {ts : List T}
    (requested : RequestedSlice s.returned pending ts) (sound : Sound build s)
    (gets : s.world.gets = []) :
    decode T (s.world.block pending.inner).bytes pending.len = ts := by
  obtain ⟨self, shbox, a, b, found, ordered, inside, member, rfl⟩ := requested
  obtain ⟨get, ⟨start, resolved, rfl⟩, bytes⟩ :=
    sound.arrived gets member ⟨a, b, rfl, ordered, inside⟩
  obtain ⟨size, opened, size_eq⟩ := resolve_span build ordered inside
  cases resolved.symm.trans opened
  have bytes : (s.world.block pending.inner).bytes = _ := bytes
  rw [bytes, decode_window, Shbox.offset, size_eq,
    elements_sub _ _ _ _ shbox.len.toNat (by omega)]
  rfl

/-- A value holds what it was built to fetch. -/
theorem Built.held {A : Type} {nbis : Nbis A} {value : A} (built : Built s.returned nbis value)
    (sound : Sound build s) (gets : s.world.gets = []) : nbis.held s.world = value := by
  induction built with
  | op requested => exact requested.held sound gets
  | slice requested => exact requested.held sound gets
  | @vecSlice T _ pending parts requested =>
    have all : pending.map (fun op => decode T (s.world.block op.inner).bytes op.len) = parts := by
      induction requested with
      | nil => rfl
      | cons head _ ih => exact congrArg₂ List.cons (head.held sound gets) ih
    exact congrArg List.flatten all
  | vecOp requested =>
    induction requested with
    | nil => rfl
    | cons head _ ih => exact congrArg₂ List.cons (head.held sound gets) ih
  | unit => rfl
  | tuple built ih => exact funext ih

end Running

/-- An array of two bytes. -/
def pairOfBytes : Shbox UInt8 := ⟨16, 2, by decide⟩

/-- A get of the second byte, and one of the whole array. -/
def twoGets (self : PEReference 2) : List (Running.Event 2) :=
  [.getSingleNbi self pairOfBytes 1, .readNbi self pairOfBytes (.span 0 2)]

end OpenShmem
