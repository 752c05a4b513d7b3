import OpenShmem.AtomicRuns
import OpenShmem.ForceAtomic

/-! Runs of the PEs' operations on a symmetric `Atomic<ForceAtomicFetch<T, S>>`, while the allocator
goes on. The routines work on words, which they only do where a word of theirs can lie, and nobody
ever sees anything but values of `T`. -/
namespace OpenShmem

open Serial

variable {P : Nat} {T : Type} [Pod T] {s : Size}

namespace ForcedOp

/-- The operation on the word. -/
def onWord : ForcedOp T s → AtomicOp (8 * s.bytes)
  | .atomicFetch _ => .atomicFetch
  | .atomicSet new => .atomicSet new.toWord
  | .atomicSwap new => .atomicSwap new.toWord

theorem call_onWord (op : ForcedOp T s) (shbox : Nat) (pe : PE) :
    op.call shbox pe = op.onWord.call shbox pe := by
  cases op <;> rfl

theorem onWord_injective : Function.Injective (onWord : ForcedOp T s → AtomicOp (8 * s.bytes)) := by
  have toWord_injective {new new' : ForceAtomicFetch T s} (same : new.toWord = new'.toWord) : new = new' := by
    rw [← new.ofWord_toWord new.size_matches, same, new'.ofWord_toWord]
  intro a b same
  cases a <;> cases b <;> simp only [onWord, reduceCtorEq, AtomicOp.atomicSet.injEq,
    AtomicOp.atomicSwap.injEq] at same
  · rfl
  · rw [toWord_injective same]
  · rw [toWord_injective same]

/-- What the caller gets, of the word the routine finds. -/
def result (shbox : Nat) (pe : PE) : ForcedOp T s → s.TreatAsA → Option (ForceAtomicFetch T s)
  | .atomicFetch size_matches, word => some ((ForceAtomicFetch.atomicFetch size_matches shbox pe).result word)
  | .atomicSet _, _ => none
  | .atomicSwap new, word => some ((ForceAtomicFetch.atomicSwap shbox new pe).result word)

/-! What the three operations are for: a cell which holds a value. -/

def apply : ForcedOp T s → ForceAtomicFetch T s → ForceAtomicFetch T s
  | .atomicFetch _, old => old
  | .atomicSet new, _ => new
  | .atomicSwap new, _ => new

def returns : ForcedOp T s → ForceAtomicFetch T s → Option (ForceAtomicFetch T s)
  | .atomicFetch _, old => some old
  | .atomicSet _, _ => none
  | .atomicSwap _, old => some old

theorem update_onWord (op : ForcedOp T s) (old : ForceAtomicFetch T s) :
    op.onWord.update old.toWord = (op.apply old).toWord := by
  cases op <;> rfl

theorem result_toWord (op : ForcedOp T s) (shbox : Nat) (pe : PE) (old : ForceAtomicFetch T s) :
    op.result shbox pe old.toWord = op.returns old := by
  cases op with
  | atomicFetch size_matches => exact congrArg some (old.ofWord_toWord size_matches)
  | atomicSet new => rfl
  | atomicSwap new => exact congrArg some (old.ofWord_toWord new.size_matches)

end ForcedOp

instance (heap : Heap) (box : NonNull) (call : AtomicCall (8 * s.bytes)) :
    Decidable (WordInside heap box call) :=
  decidable_of_iff (s.bytes ∣ call.addr ∧ ∃ cells ∈ heap box.addr, box.addr ≤ call.addr ∧
    call.addr + s.bytes ≤ box.addr + cells.length)
    ⟨fun place => ⟨place.1, place.2⟩, fun place => ⟨place.aligned, place.inside⟩⟩

/-! ### The machine -/

/-- A call, and the PE to whose word it goes. -/
structure ForcedRequest (P : Nat) (T : Type) [Pod T] (s : Size) where
  op : ForcedOp T s
  pe : PE
  target : Fin P

/-- The symmetric heap with a box in it, of which `mem` has the word of each PE. `called` and
`served` only record. `undefined` remembers whether a routine has ever worked on what is no word
of its type. -/
structure Forced (P : Nat) (T : Type) [Pod T] (s : Size) where
  history : History
  mem : Fin P → s.TreatAsA
  flight : List (ForcedRequest P T s)
  called : Fin P → List (ForcedOp T s)
  served : Fin P → List (ForcedOp T s × s.TreatAsA)
  undefined : Bool

namespace Forced

inductive Event (T : Type) [Pod T] (s : Size) where
  | allocator (e : History.Event)
  | call (op : ForcedOp T s) (pe : PE)
  | land (j : Nat)

section

variable (fundamental : Alignment) (box : NonNull) (f : Forced P T s)

/-- The PE a call goes to. -/
def target (P : Nat) (op : ForcedOp T s) (pe : PE) : Option (Fin P) :=
  ((op.call box.addr pe).toUpdate P).map Update.target

/-- The routine of a request works. The block of the box is at the same place on every PE. -/
def serve (request : ForcedRequest P T s) : Forced P T s :=
  if WordInside f.history.heap box (request.op.call box.addr request.pe) then
    { f with
      mem := Function.update f.mem request.target
        ((request.op.call box.addr request.pe).update (f.mem request.target))
      served := Function.update f.served request.target
        (f.served request.target ++ [(request.op, f.mem request.target)]) }
  else { f with undefined := true }

def ask (request : ForcedRequest P T s) : Forced P T s :=
  { f with called := Function.update f.called request.target (f.called request.target ++ [request.op]) }

/-- The allocator does whatever it is asked for, as long as nobody drops the box. -/
def enabled : Event T s → Prop
  | .allocator e => ((History.machine fundamental).under (History.Spares box)).enabled f.history e
  | .call op pe => (target box P op pe).isSome
  | .land j => j < f.flight.length

def next : Event T s → Forced P T s
  | .allocator e => { f with history := f.history.next e }
  | .call op pe => match target box P op pe with
    | some q =>
      if (op.call box.addr pe).routine.fetches then (f.ask ⟨op, pe, q⟩).serve box ⟨op, pe, q⟩
      else { f.ask ⟨op, pe, q⟩ with flight := f.flight ++ [⟨op, pe, q⟩] }
    | none => f
  | .land j => match f.flight[j]? with
    | some request => { f.serve box request with flight := f.flight.eraseIdx j }
    | none => f

end

def machine (P : Nat) (T : Type) [Pod T] (s : Size) (fundamental : Alignment) (box : NonNull) :
    Machine (Forced P T s) (Event T s) := ⟨enabled fundamental box, next box⟩

/-- Every PE has stored its value into the box. -/
def start (history : History) (initial : Fin P → ForceAtomicFetch T s) : Forced P T s :=
  ⟨history, fun q => (initial q).toWord, [], fun _ => [], fun _ => [], false⟩

/-- The operations on their way to the word of a PE. -/
def onWay (f : Forced P T s) (q : Fin P) : List (ForcedOp T s) :=
  (f.flight.filter (·.target = q)).map ForcedRequest.op

/-- The word of a PE behaves as a cell of `T`: what has been done to it are operations on values,
one after the other, these are the ones which were called and are not on their way, and each
caller got what its operation returns there. -/
structure Cell (box : NonNull) (initial : Fin P → ForceAtomicFetch T s) (f : Forced P T s) (q : Fin P)
    (log : List (ForcedOp T s × ForceAtomicFetch T s)) (last : ForceAtomicFetch T s) : Prop where
  chain : Chain ForcedOp.apply (initial q) log last
  word : f.mem q = last.toWord
  served : f.served q = log.map fun x => (x.1, x.2.toWord)
  results : ∀ x ∈ log, ∀ pe, x.1.result box.addr pe x.2.toWord = x.1.returns x.2
  calls : (log.map Prod.fst ++ f.onWay q).Perm (f.called q)

/-! ### The words -/

/-- The same without the allocator and with operations on words. -/
def words (f : Forced P T s) : Words P (8 * s.bytes) where
  mem := f.mem
  flight := f.flight.map fun request => (request.target, request.op.onWord)
  called q := (f.called q).map ForcedOp.onWord
  served q := (f.served q).map fun x => (x.1.onWord, x.2)

variable {fundamental : Alignment} {box : NonNull} {f : Forced P T s} {cells : List UInt8}
  {initial : Fin P → ForceAtomicFetch T s}

/-- Images of records which get longer by one. -/
theorem map_record {α β : Type} (g : α → β) (records : Fin P → List α) (p : Fin P) (a : α) :
    (fun q => (Function.update records p (records p ++ [a]) q).map g) =
      Function.update (fun q => (records q).map g) p ((records p).map g ++ [g a]) := by
  funext q
  rw [Function.apply_update fun _ => List.map g, List.map_append, List.map_singleton]

theorem words_ask (request : ForcedRequest P T s) :
    (f.ask request).words = f.words.ask request.target request.op.onWord := by
  have called := map_record ForcedOp.onWord f.called request.target request.op
  simp only [words, ask, Words.ask, called]

/-- Inside the box a routine does what it does to any word. -/
theorem words_serve {request : ForcedRequest P T s}
    (inside : WordInside f.history.heap box (request.op.call box.addr request.pe)) :
    (f.serve box request).words = f.words.serve request.target request.op.onWord := by
  have served := map_record (fun x : ForcedOp T s × s.TreatAsA => (x.1.onWord, x.2)) f.served
    request.target (request.op, f.mem request.target)
  have update : (request.op.call box.addr request.pe).update = request.op.onWord.update := by
    rw [request.op.call_onWord, AtomicOp.call_update]
  simp only [words, serve, if_pos inside, Words.serve, served, update]

theorem target_onWord (op : ForcedOp T s) (pe : PE) :
    target box P op pe = Words.target P box.addr op.onWord pe := by
  rw [target, op.call_onWord, Words.target]

section

variable (inside : ∀ (op : ForcedOp T s) pe, WordInside f.history.heap box (op.call box.addr pe))
include inside

theorem next_call (op : ForcedOp T s) (pe : PE) :
    (next box f (.call op pe)).words = Words.next box.addr f.words (.call op.onWord pe) := by
  simp only [next, Words.next, op.call_onWord, AtomicOp.call_fetches, ← target_onWord]
  cases target box P op pe with
  | none => rfl
  | some q =>
    have asked := words_ask (f := f) ⟨op, pe, q⟩
    by_cases fetches : op.onWord.fetches
    · simp only [if_pos fetches]
      rw [words_serve (inside op pe), asked]
    · simp only [if_neg fetches]
      rw [← asked]
      simp only [words, ask, List.map_append, List.map_singleton]

theorem next_land (j : Nat) :
    (next box f (.land j)).words = Words.next box.addr f.words (.land j) := by
  have landing : f.words.flight[j]? =
      (f.flight[j]?).map fun request => (request.target, request.op.onWord) := List.getElem?_map
  simp only [next, Words.next, landing]
  cases f.flight[j]? with
  | none => rfl
  | some request =>
    simp only [Option.map_some]
    rw [← words_serve (inside request.op request.pe)]
    simp only [words, List.eraseIdx_map]

/-- Where every routine finds its word, none does what is undefined. -/
theorem next_undefined (e : Event T s) : (next box f e).undefined = f.undefined := by
  have served (f' : Forced P T s) (same : f'.history = f.history) (request : ForcedRequest P T s) :
      (f'.serve box request).undefined = f'.undefined := by
    rw [serve, same, if_pos (inside request.op request.pe)]
  cases e with
  | allocator e => rfl
  | call op pe =>
    simp only [next]
    split
    · split
      · exact served (f.ask _) rfl _
      · rfl
    · rfl
  | land j =>
    simp only [next]
    split
    · exact served f rfl _
    · rfl

end

/-- Only the allocator changes the heap, and it spares the box. -/
theorem next_block (live : f.history.heap box.addr = some cells) (nonempty : cells.length ≠ 0)
    (e : Event T s) (fires : enabled fundamental box f e) :
    (next box f e).history.heap box.addr = some cells := by
  have served (f' : Forced P T s) (request : ForcedRequest P T s) :
      (f'.serve box request).history = f'.history := by
    rw [serve]
    split <;> rfl
  cases e with
  | allocator e => exact History.spares_step nonempty f.history e live fires
  | call op pe =>
    simp only [next]
    split
    · split
      · rw [served]
        exact live
      · exact live
    · exact live
  | land j =>
    simp only [next]
    split
    · rw [served]
      exact live
    · exact live

/-- What a run relies on and keeps: the block of the box is there, so that every routine finds its
word, and the words are sound. -/
structure Sound (box : NonNull) (cells : List UInt8) (initial : Fin P → ForceAtomicFetch T s)
    (f : Forced P T s) : Prop where
  block : f.history.heap box.addr = some cells
  defined : f.undefined = false
  words : Words.Sound (fun q => (initial q).toWord) f.words

namespace Sound

theorem step (aligned : s.bytes ∣ box.addr) (length : cells.length = s.bytes) (f : Forced P T s)
    (e : Event T s) (sound : Sound box cells initial f)
    (fires : (machine P T s fundamental box).enabled f e) :
    Sound box cells initial ((machine P T s fundamental box).next f e) := by
  have inside (op : ForcedOp T s) (pe : PE) : WordInside f.history.heap box (op.call box.addr pe) :=
    wordInside_of_block op pe sound.block length aligned
  have nonempty : cells.length ≠ 0 := by rw [length]; exact s.bytes_ne_zero
  refine ⟨next_block sound.block nonempty e fires, (next_undefined inside e).trans sound.defined, ?_⟩
  cases e with
  | allocator e => exact sound.words
  | call op pe =>
    have asks : (Words.machine P _ box.addr).enabled f.words (.call op.onWord pe) := by
      have fires : (target box P op pe).isSome := fires
      rwa [target_onWord] at fires
    have words := sound.words.step _ _ asks
    simp only [Words.machine, ← next_call inside] at words
    exact words
  | land j =>
    have travels : (Words.machine P _ box.addr).enabled f.words (.land j) := by
      have bound : j < f.flight.length := fires
      simpa [Words.machine, Words.enabled, Forced.words] using bound
    have words := sound.words.step _ _ travels
    simp only [Words.machine, ← next_land inside] at words
    exact words

theorem cell (sound : Sound box cells initial f) (q : Fin P) :
    ∃ log last, Cell box initial f q log last := by
  have images : ∀ x ∈ f.words.served q, ∃ op : ForcedOp T s, op.onWord = x.1 := by
    intro x member
    obtain ⟨y, _, rfl⟩ := List.mem_map.mp member
    exact ⟨y.1, rfl⟩
  obtain ⟨log, last, chain, served, word⟩ := (sound.words.chain q).lift ForcedOp.onWord
    ForceAtomicFetch.toWord ForcedOp.update_onWord images
  have same : f.served q = log.map fun x => (x.1, x.2.toWord) := by
    refine List.map_injective_iff.mpr (ForcedOp.onWord_injective.prodMap Function.injective_id) ?_
    rw [List.map_map]
    exact served
  refine ⟨log, last, chain, word, same, fun x _ pe => x.1.result_toWord box.addr pe x.2, ?_⟩
  have travels : f.words.onWay q = (f.onWay q).map ForcedOp.onWord := by
    simp [Words.onWay, Forced.words, Forced.onWay, List.filter_map, Function.comp_def]
  have done : (f.words.served q).map Prod.fst = (log.map Prod.fst).map ForcedOp.onWord := by
    rw [served, List.map_map, List.map_map]
    rfl
  have calls := sound.words.called q
  rw [travels, done, ← List.map_append] at calls
  exact (List.map_perm_map_iff ForcedOp.onWord_injective).mp calls

end Sound

end Forced

/-- Every PE has a box of a type with the alignment of the word, and all have stored their values
into it. -/
theorem forced_cell [Aligned T] {fundamental : Alignment} (aligned : (Aligned.align T).toNat = s.bytes)
    {state : History} {lib : Library} (conforms : lib.Conforms fundamental state.heap)
    (initial : Fin P → ForceAtomicFetch T s) (me : Fin P) {box : NonNull} {heap : Heap}
    (built : (Shmallocator.shbox lib (initial me).layout).run state.heap = (.ok box, heap))
    {events : List (Forced.Event T s)}
    (run : (Forced.machine P T s fundamental box).Admits
      (Forced.start (state.next (.shbox lib (initial me).layout)) initial) events) :
    ((Forced.machine P T s fundamental box).after
      (Forced.start (state.next (.shbox lib (initial me).layout)) initial) events).undefined = false ∧
    ∀ q, ∃ log last, Forced.Cell box initial ((Forced.machine P T s fundamental box).after
      (Forced.start (state.next (.shbox lib (initial me).layout)) initial) events) q log last := by
  have nothing := Machine.admits_nil ((History.machine fundamental).under (History.Spares box))
    (state.next (.shbox lib (initial me).layout))
  obtain ⟨place, cells, length, block⟩ := shbox_block (initial me) conforms built nothing
  rw [aligned] at place
  have start : Forced.Sound box cells initial
      (Forced.start (state.next (.shbox lib (initial me).layout)) initial) :=
    ⟨block, rfl, Words.Sound.start _⟩
  have sound := Machine.invariant _ (Forced.Sound.step place length) start run
  exact ⟨sound.defined, sound.cell⟩

/-- Four bytes with the alignment of a `u32`. -/
structure Pixel where
  channels : Vector UInt8 4

instance : Pod Pixel where
  size := Pod.size (Vector UInt8 4)
  size_le := Pod.size_le
  toBytes pixel := Pod.toBytes pixel.channels
  ofBytes bytes := ⟨Pod.ofBytes bytes⟩
  length_toBytes pixel := Pod.length_toBytes pixel.channels
  ofBytes_toBytes pixel := congrArg Pixel.mk (Pod.ofBytes_toBytes pixel.channels)
  toBytes_ofBytes bytes fit := Pod.toBytes_ofBytes (T := Vector UInt8 4) bytes fit

instance : Aligned Pixel where
  align := ⟨4, 2, rfl⟩
  divides := by decide
  fits := by decide

def gray (level : UInt8) : ForceAtomicFetch Pixel .size32 :=
  forceAtomic32 ⟨#v[level, level, level, level]⟩ rfl

/-- What the PEs store, and what they do while another block comes and goes. -/
def grays (p : Fin 2) : ForceAtomicFetch Pixel .size32 := gray (if p.val = 0 then 1 else 4)

def grayEvents : List (Forced.Event Pixel .size32) :=
  [.call (.atomicSet (gray 2)) ⟨1⟩, .allocator (.allocate (leastPlace ⟨8, 3, rfl⟩) ⟨8, ⟨8, 3, rfl⟩, by decide⟩),
    .call (.atomicSwap (gray 3)) ⟨1⟩, .call (.atomicSwap (gray 5)) ⟨0⟩, .land 0,
    .allocator (.deallocate ⟨8, by decide⟩), .call (.atomicFetch rfl) ⟨1⟩]

def grayRun : Forced 2 Pixel .size32 :=
  (Forced.machine 2 Pixel .size32 ⟨16, 4, rfl⟩ (.dangling ⟨4, 2, rfl⟩)).after (Forced.start
    ((History.start Blocks.empty).next (.shbox (leastPlace ⟨4, 2, rfl⟩) (grays 0).layout)) grays) grayEvents

/-- The value which is set last covers the one which is swapped in before it arrives. -/
theorem forced_cell_two :
    grayRun.undefined = false ∧
      ∀ q, ∃ log last, Forced.Cell (.dangling ⟨4, 2, rfl⟩) grays grayRun q log last := by
  have behind (size : Nat) : Blocks.Free (Blocks.empty.allocate 4 [(0 : UInt8), 0, 0, 0]) 8 size := by
    intro q cells live
    rcases Blocks.live_of_allocate live with ⟨rfl, rfl⟩ | ⟨_, nothing⟩
    · exact .inr (Nat.le_refl 8)
    · cases nothing
  refine forced_cell rfl (leastPlace_conforms ⟨16, 4, rfl⟩ ⟨4, 2, rfl⟩ fun _ => Blocks.free_empty) grays 0
    (leastPlace_shbox _) ?_
  refine ⟨rfl, ⟨⟨leastPlace_conforms _ ⟨8, 3, rfl⟩ behind, by decide⟩, trivial⟩, rfl, rfl,
    Nat.zero_lt_one, ⟨⟨⟨8, ⟨8, 3, rfl⟩, by decide⟩, rfl⟩, ?_⟩, rfl, trivial⟩
  exact Nat.ne_of_gt (show 4 < 8 by decide)

end OpenShmem
