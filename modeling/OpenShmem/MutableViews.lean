import OpenShmem.Machine
import OpenShmem.Rma

/-! Views of one symmetric array, opened, stored through and dropped by any PEs in
any order, while the network delivers their puts in any order. -/
namespace OpenShmem

open Overlay

variable {ι : Type} {P : Nat} {T : Type} [Pod T]

/-- The views a program opens. Their ranges are valid and not empty, and those on
one PE are apart. -/
structure ViewPlan (ι : Type) (P : Nat) (T : Type) [Pod T] where
  shbox : Shbox T
  on : ι → PEReference P
  range : ι → RangeBounds
  valid : ∀ k, (range k).ValidFor shbox.len.toNat
  nonempty : ∀ k, (range k).lo < (range k).hi shbox.len.toNat
  apart : ∀ j k, j ≠ k → (on j).target = (on k).target →
    (range j).hi shbox.len.toNat ≤ (range k).lo ∨ (range k).hi shbox.len.toNat ≤ (range j).lo

inductive ViewState (P : Nat) (T : Type) [Pod T] where
  | unopened
  | opened (view : MutableArrayView P T)
  | finished
  | panicked

/-- `stored` remembers what the callers stored through each view. -/
structure Editing (ι : Type) (P : Nat) (T : Type) [Pod T] where
  world : World P
  views : ι → ViewState P T
  stored : ι → Nat → Option T

namespace ViewPlan

variable (plan : ViewPlan ι P T)

def target (k : ι) : Fin P := (plan.on k).target
def first (k : ι) : Nat := (plan.range k).lo
def past (k : ι) : Nat := (plan.range k).hi plan.shbox.len.toNat

/-- The byte belongs to the range of the view. -/
def Covers (k : ι) (q : Fin P) (x : Nat) : Prop :=
  plan.target k = q ∧ plan.shbox.addr + plan.first k * Pod.size T ≤ x ∧
    x < plan.shbox.addr + plan.past k * Pod.size T

/-- `garbage` is what a fresh buffer, or the memory behind a buffer, happens to hold. -/
inductive Event (ι : Type) (T : Type) where
  | write (k : ι) (garbage : Nat → UInt8)
  | store (k : ι) (i : Nat) (t : T)
  | drop (k : ι) (garbage : Nat → UInt8)
  | finish (k : ι) (garbage : Nat → UInt8)
  | deliver (j : Nat)

variable [DecidableEq ι]

def store (s : Editing ι P T) (k : ι) (i : Nat) (t : T) : Editing ι P T :=
  match s.views k with
  | .opened view =>
    { s with
      views := Function.update s.views k
        (.opened (view.assign fun j => if j = i then some t else none))
      stored := Function.update s.stored k (Function.update (s.stored k) i (some t)) }
  | _ => s

/-- What becomes of view `k` when a computation is run with its result. -/
def settle {α : Type} (s : Editing ι P T) (k : ι) (status : α → ViewState P T) :
    Outcome P α → Editing ι P T
  | .ok a w => { s with world := w, views := Function.update s.views k (status a) }
  | .panic _ w => { s with world := w, views := Function.update s.views k .panicked }

def close (s : Editing ι P T) (k : ι) (garbage : Nat → UInt8)
    (how : MutableArrayView P T → Shmem P Unit) : Editing ι P T :=
  match s.views k with
  | .opened view => settle s k (fun _ => .finished) ((how view).run { s.world with garbage })
  | _ => s

def next (build : Build) (s : Editing ι P T) : Event ι T → Editing ι P T
  | .write k garbage => settle s k .opened
      (((plan.on k).write build plan.shbox (plan.range k)).run { s.world with garbage })
  | .store k i t => store s k i t
  | .drop k garbage => close s k garbage (MutableArrayView.drop build)
  | .finish k garbage => close s k garbage (MutableArrayView.finish build)
  | .deliver j => { s with world := s.world.deliverPut j }

def enabled (s : Editing ι P T) : Event ι T → Prop
  | .write k _ => s.views k = .unopened
  | .store k i _ => ∃ view, s.views k = .opened view ∧ i < view.buf.elems.length
  | .drop k _ | .finish k _ => ∃ view, s.views k = .opened view
  | .deliver j => j < s.world.puts.length

def machine (build : Build) : Machine (Editing ι P T) (Event ι T) :=
  ⟨enabled, plan.next build⟩

def start (mem : Fin P → Nat → UInt8) : Editing ι P T :=
  ⟨{ World.blank P with mem }, fun _ => .unopened, fun _ _ => none⟩

/-- A memory which holds what was stored through the finished views, at the matching
offsets, and is as it was everywhere else, inside and outside the arrays. -/
structure Shows (s : Editing ι P T) (initial mem : Fin P → Nat → UInt8) : Prop where
  stored : ∀ k, s.views k = .finished → ∀ i t, s.stored k i = some t →
    plan.first k + i < plan.past k →
    element T (mem (plan.target k)) plan.shbox.addr (plan.first k + i) = t
  kept : ∀ q x, (∀ k, s.views k = .finished → ¬ plan.Covers k q x) → mem q x = initial q x

/-- No view has panicked, and the finished ones have landed if nothing is in flight,
which is what a barrier waits for. -/
structure Landed (initial : Fin P → Nat → UInt8) (s : Editing ι P T) : Prop where
  no_panic : ∀ k, s.views k ≠ .panicked
  shows_ : s.world.puts = [] → plan.Shows s initial s.world.mem

end ViewPlan

/-- The ranges whose two interpretations fit together. A bounded range has to start
at element 0 or 1. An unbounded one opens a buffer one element too long, and its put
misses that element again exactly if it starts at element 2; where elements have no
bytes it only has to be accepted. -/
def RangeBounds.Faithful (build : Build) (size len : Nat) (range : RangeBounds) : Prop :=
  if range.endBound ≠ .unbounded then range.lo ≤ 1
  else if size ≠ 0 then range.lo = 2
  else 2 * range.lo ≤ len + 1 ∧ ¬ (build = .debug ∧ range.lo = 0 ∧ usizeMax ≤ len + 1)

/-! ### The two interpretations of a range -/
section

variable {build : Build} {range : RangeBounds} {len first size start count : Usize} {bytes : Nat}

/-- Both resolutions accept, and the put has the place and the bytes of the range. -/
structure RangeBounds.LandsAt (build : Build) (bytes : Nat) (len : Usize) (range : RangeBounds)
    (first size start count : Usize) : Prop where
  opened : resolve build range len = .ok (first, size)
  fits : size.toNat * bytes ≤ isizeMax
  again : resolve build range size = .ok (start, count)
  place : start.toNat = range.lo
  amount : count.toNat * bytes = (range.hi len.toNat - range.lo) * bytes

theorem lands_bounded (layout : len.toNat * bytes ≤ isizeMax) (valid : range.ValidFor len.toNat)
    (nonempty : range.lo < range.hi len.toNat) (bounded : range.endBound ≠ .unbounded)
    (early : range.lo ≤ 1) :
    ∃ first size start count, range.LandsAt build bytes len first size start count := by
  obtain ⟨first, size, opened, first_eq, size_eq⟩ :=
    resolve_bounded build valid nonempty bounded
  have inside : range.hi len.toNat ≤ len.toNat := valid.2
  have last : range.endBound.last build len.toNat = range.hi len.toNat - 1 :=
    RangeBounds.last_nonempty build bounded nonempty
  have again : resolve build range size = .ok (first, size) :=
    (reresolve_bounded opened bounded).mpr ⟨rfl, rfl, by omega⟩
  have fits : size.toNat * bytes ≤ isizeMax :=
    Nat.le_trans (Nat.mul_le_mul_right _ (by omega)) layout
  exact ⟨first, size, first, size, opened, fits, again, first_eq, by rw [size_eq]⟩

theorem resolve_since (valid : range.ValidFor len.toNat) (unbounded : range.endBound = .unbounded) :
    resolve build range len = .ok (start, count) ↔ start.toNat = range.lo ∧
      ((len.toNat - range.lo + 1 < 2^64 ∧ count.toNat = len.toNat - range.lo + 1) ∨
        (build = .release ∧ len.toNat - range.lo + 1 = 2^64 ∧ count.toNat = 0)) := by
  have bound := len.isLt
  have hi : range.hi len.toNat = len.toNat := RangeBounds.hi_unbounded unbounded
  obtain ⟨ordered, _⟩ := valid
  have exact_ : range.startBound.start build = range.lo :=
    Bound.start_exact (show range.lo < 2^64 by omega)
  rw [resolve_ok, exact_, unbounded]
  simp only [Bound.last, if_true]
  constructor
  · rintro ⟨first, _, _, counted⟩
    rw [first] at counted
    exact ⟨first, counted⟩
  · rintro ⟨first, counted⟩
    rw [first]
    exact ⟨rfl, by omega, by omega, counted⟩

theorem lands_unbounded (layout : len.toNat * bytes ≤ isizeMax)
    (valid : range.ValidFor len.toNat) (nonempty : range.lo < range.hi len.toNat)
    (unbounded : range.endBound = .unbounded) (third : range.lo = 2) :
    ∃ first size start count, range.LandsAt build bytes len first size start count := by
  have bound := len.isLt
  have hi : range.hi len.toNat = len.toNat := RangeBounds.hi_unbounded unbounded
  obtain ⟨first, first_eq⟩ := exists_usize (n := 2) (by omega)
  obtain ⟨size, size_eq⟩ := exists_usize (n := len.toNat - 1) (by omega)
  obtain ⟨count, count_eq⟩ := exists_usize (n := len.toNat - 2) (by omega)
  have opened : resolve build range len = .ok (first, size) :=
    (resolve_since valid unbounded).mpr ⟨by omega, .inl ⟨by omega, by omega⟩⟩
  have again : resolve build range size = .ok (first, count) :=
    (reresolve_unbounded opened unbounded).mpr ⟨rfl, by omega, .inl ⟨by omega, by omega⟩⟩
  have fits : size.toNat * bytes ≤ isizeMax :=
    Nat.le_trans (Nat.mul_le_mul_right _ (by omega)) layout
  exact ⟨first, size, first, count, opened, fits, again, by omega, by rw [count_eq, hi, third]⟩

/-- An unbounded range over elements without bytes is accepted twice unless it starts
in the second half, or a count wraps in a debug build. -/
theorem reresolve_since_iff (valid : range.ValidFor len.toNat)
    (nonempty : range.lo < range.hi len.toNat) (unbounded : range.endBound = .unbounded) :
    (∃ first size start count, resolve build range len = .ok (first, size) ∧
      resolve build range size = .ok (start, count)) ↔
    2 * range.lo ≤ len.toNat + 1 ∧
      ¬ (build = .debug ∧ range.lo = 0 ∧ usizeMax ≤ len.toNat + 1) := by
  have bound := len.isLt
  have hi : range.hi len.toNat = len.toNat := RangeBounds.hi_unbounded unbounded
  constructor
  · rintro ⟨first, size, start, count, opened, again⟩
    obtain ⟨first_eq, sized⟩ := (resolve_since valid unbounded).mp opened
    obtain ⟨rfl, below, counted⟩ := (reresolve_unbounded opened unbounded).mp again
    cases build with
    | debug =>
      simp only [reduceCtorEq, false_and, or_false] at sized counted
      simp only [usizeMax]
      omega
    | release => exact ⟨by omega, by simp⟩
  · rintro ⟨early, unwrapped⟩
    simp only [usizeMax] at unwrapped
    obtain ⟨first, first_eq⟩ := exists_usize (n := range.lo) (by omega)
    obtain ⟨size, sized⟩ := exists_count build (n := len.toNat - range.lo + 1) (by omega)
      fun debug => by simp only [debug, true_and] at unwrapped; omega
    have opened : resolve build range len = .ok (first, size) :=
      (resolve_since valid unbounded).mpr ⟨first_eq, sized⟩
    obtain ⟨count, counted⟩ := exists_count build (n := size.toNat - first.toNat + 1) (by omega)
      fun debug => by simp only [debug, true_and] at unwrapped; omega
    exact ⟨first, size, first, count, opened,
      (reresolve_unbounded opened unbounded).mpr ⟨rfl, by omega, counted⟩⟩

theorem faithful_lands (layout : len.toNat * bytes ≤ isizeMax) (valid : range.ValidFor len.toNat)
    (nonempty : range.lo < range.hi len.toNat)
    (faithful : range.Faithful build bytes len.toNat) :
    ∃ first size start count, range.LandsAt build bytes len first size start count := by
  unfold RangeBounds.Faithful at faithful
  split_ifs at faithful with bounded sized
  · exact lands_bounded layout valid nonempty bounded faithful
  · exact lands_unbounded layout valid nonempty (not_not.mp bounded) faithful
  · obtain ⟨first, size, start, count, opened, again⟩ :=
      (reresolve_since_iff valid nonempty (not_not.mp bounded)).mpr faithful
    obtain ⟨rfl, _, _⟩ := (reresolve_unbounded opened (not_not.mp bounded)).mp again
    have place := ((resolve_since valid (not_not.mp bounded)).mp opened).1
    exact ⟨start, size, start, count, opened, by simp [not_not.mp sized], again, place,
      by simp [not_not.mp sized]⟩

end

/-! ### Faithful views land in every run -/
namespace ViewPlan

variable {plan : ViewPlan ι P T} {build : Build} {initial mem : Fin P → Nat → UInt8}
  {s s' : Editing ι P T} {k : ι}

/-- An open view of the plan, with what was stored through it in its buffer. -/
structure Tracked (plan : ViewPlan ι P T) (build : Build) (k : ι) (stored : Nat → Option T)
    (view : MutableArrayView P T) : Prop where
  into : view.into = plan.shbox
  range : view.range = plan.range k
  on : view.on = plan.target k
  buffer : ∃ first, resolve build (plan.range k) plan.shbox.len = .ok (first, view.buf.len)
  holds : ∀ i t, stored i = some t → view.buf.elems[i]? = some t

def Tracks (plan : ViewPlan ι P T) (build : Build) (k : ι) (stored : Nat → Option T) :
    ViewState P T → Prop
  | .unopened => ∀ i, stored i = none
  | .opened view => plan.Tracked build k stored view
  | .finished => True
  | .panicked => False

/-- What every run of faithful views keeps. `spec` is the memory that will be left
when the puts in flight have arrived. -/
structure Sound (plan : ViewPlan ι P T) (build : Build) (initial : Fin P → Nat → UInt8)
    (s : Editing ι P T) : Prop where
  tracks : ∀ k, plan.Tracks build k (s.stored k) (s.views k)
  settles : ∃ spec, Settles s.world.mem s.world.puts spec ∧ plan.Shows s initial spec
  flight : ∀ w ∈ s.world.puts, ∃ k, s.views k = .finished ∧
    ∀ q x, w.Covers q x → plan.Covers k q x

/-- Two views never cover the same byte. -/
theorem covers_unique {j k : ι} {q : Fin P} {x : Nat} (first : plan.Covers j q x)
    (second : plan.Covers k q x) : j = k := by
  by_contra different
  obtain ⟨target, low, high⟩ := first
  obtain ⟨target', low', high'⟩ := second
  rcases plan.apart j k different (target.trans target'.symm) with before | before <;>
    have := Nat.mul_le_mul_right (Pod.size T) before <;>
    simp only [first, past] at * <;> omega

theorem Shows.congr (shows_ : plan.Shows s initial mem)
    (finished : ∀ j, s'.views j = .finished ↔ s.views j = .finished)
    (stored : ∀ j, s.views j = .finished → s'.stored j = s.stored j) :
    plan.Shows s' initial mem := by
  constructor
  · intro j done i t
    rw [stored j ((finished j).mp done)]
    exact shows_.stored j ((finished j).mp done) i t
  · intro q x uncovered
    exact shows_.kept q x fun j done => uncovered j ((finished j).mpr done)

/-- The put of view `k`, as its range has it. -/
def put (plan : ViewPlan ι P T) (k : ι) (buf : Slice T) (garbage : Nat → UInt8) :
    Write (Fin P) UInt8 :=
  ⟨plan.target k, plan.shbox.addr + plan.first k * Pod.size T,
    window (buf.memory garbage) 0 ((plan.past k - plan.first k) * Pod.size T)⟩

theorem put_covers (buf : Slice T) (garbage : Nat → UInt8) (q : Fin P) (x : Nat) :
    (plan.put k buf garbage).Covers q x ↔ plan.Covers k q x := by
  have nonempty : plan.first k ≤ plan.past k := Nat.le_of_lt (plan.nonempty k)
  have := Nat.mul_le_mul_right (Pod.size T) nonempty
  simp only [Write.Covers, put, Covers, window_length, Nat.sub_mul]
  constructor <;> rintro ⟨target, low, high⟩ <;> exact ⟨target, low, by omega⟩

theorem Sound.opened {view : MutableArrayView P T} (sound : plan.Sound build initial s)
    (opened : s.views k = .opened view) : plan.Tracked build k (s.stored k) view := by
  have tracks := sound.tracks k
  rwa [opened] at tracks

/-- A faithful view issues the put of its range. -/
theorem Sound.drop_run {view : MutableArrayView P T} (sound : plan.Sound build initial s)
    (opened : s.views k = .opened view)
    (faithful : (plan.range k).Faithful build (Pod.size T) plan.shbox.len.toNat) (w : World P) :
    ∃ next, (view.drop build).run w = .ok () next ∧ next.mem = w.mem ∧
      next.puts = w.puts ++ [plan.put k view.buf w.garbage] := by
  have tracked := sound.opened opened
  obtain ⟨first, size, start, count, lands⟩ :=
    faithful_lands plan.shbox.layout (plan.valid k) (plan.nonempty k) faithful
  have again : resolve build view.range view.buf.len = .ok (start, count) := by
    obtain ⟨_, resolved⟩ := tracked.buffer
    cases lands.opened.symm.trans resolved
    rw [tracked.range]
    exact lands.again
  refine ⟨_, MutableArrayView.drop_resolved again, rfl, ?_⟩
  simp only [World.sent, tracked.on, tracked.into, Shbox.offset, lands.place, lands.amount]
  rfl

theorem Sound.deliver (sound : plan.Sound build initial s) (j : Nat) :
    plan.Sound build initial { s with world := s.world.deliverPut j } := by
  obtain ⟨spec, settles, shows_⟩ := sound.settles
  exact
    { tracks := sound.tracks
      settles := ⟨spec, deliverPut_settles settles j,
        shows_.congr (fun _ => Iff.rfl) fun _ _ => rfl⟩
      flight := fun other member => sound.flight other (mem_deliverPut member) }

theorem Sound.start : plan.Sound build initial (ViewPlan.start initial) := by
  refine ⟨fun _ _ => rfl, ⟨initial, Settles.start initial, ?_, fun _ _ _ => rfl⟩, ?_⟩
  · intro k done
    cases done
  · intro put member
    cases member

theorem Sound.landed (sound : plan.Sound build initial s) : plan.Landed initial s := by
  constructor
  · intro k panicked
    have tracks := sound.tracks k
    rwa [panicked] at tracks
  · intro settled
    obtain ⟨spec, settles, shows_⟩ := sound.settles
    rw [settled] at settles
    rwa [settles.done]

/-- Storing an element in a buffer shows at its index and nowhere else. -/
theorem assign_getElem? (buf : Slice T) {i j : Nat} {t u : T} {stored : Nat → Option T}
    (fits : i < buf.elems.length) (holds : ∀ j t, stored j = some t → buf.elems[j]? = some t)
    (value : Function.update stored i (some t) j = some u) :
    (buf.assign fun j => if j = i then some t else none).elems[j]? = some u := by
  by_cases same : j = i
  · subst same
    rw [Function.update_self, Option.some.injEq] at value
    simp [Slice.assign, fits, value]
  · rw [Function.update_of_ne same] at value
    simp [Slice.assign, List.getElem?_mapIdx, same, holds j u value]

variable [DecidableEq ι]

/-- Changing the state of a view which is not finished, and stays so. -/
theorem finished_update {status : ViewState P T} (before : s.views k ≠ .finished)
    (after : status ≠ .finished) (j : ι) :
    Function.update s.views k status j = .finished ↔ s.views j = .finished := by
  by_cases same : j = k
  · subst same
    simp [before, after]
  · rw [Function.update_of_ne same]

/-- The memory after the put of a view shows that view as well. -/
theorem Shows.put (shows_ : plan.Shows s initial mem) (buf : Slice T) (garbage : Nat → UInt8)
    (holds : ∀ i t, s.stored k i = some t → buf.elems[i]? = some t)
    (views : s'.views = Function.update s.views k .finished) (stored : s'.stored = s.stored) :
    plan.Shows s' initial ((plan.put k buf garbage).apply mem) := by
  constructor
  · intro j done i t
    rw [stored]
    intro value inside
    by_cases same : j = k
    · subst same
      have loaded := buf.memory_element garbage (holds i t value)
      rw [Write.apply, ViewPlan.put, Function.update_self, element_put_inside _ _ _ _ _ (by omega),
        loaded]
    · have done : s.views j = .finished := by
        rwa [views, Function.update_of_ne same] at done
      rw [← shows_.stored j done i t value inside]
      apply element_congr
      intro x hx
      apply Write.apply_uncovered
      intro covered
      have byte : (plan.first j + i) * Pod.size T + x < plan.past j * Pod.size T :=
        RowMajor.index_lt inside hx
      have low := Nat.mul_le_mul_right (Pod.size T) (Nat.le_add_right (plan.first j) i)
      have mine : plan.Covers j (plan.target j)
          (plan.shbox.addr + (plan.first j + i) * Pod.size T + x) := ⟨rfl, by omega, by omega⟩
      exact same (covers_unique mine ((put_covers buf garbage _ _).mp covered))
  · intro q x uncovered
    have free : ¬ (plan.put k buf garbage).Covers q x := fun covered =>
      uncovered k (by rw [views, Function.update_self]) ((put_covers buf garbage q x).mp covered)
    rw [Write.apply_uncovered _ _ free]
    apply shows_.kept q x
    intro j done
    apply uncovered j
    by_cases same : j = k
    · rw [views, same, Function.update_self]
    · rw [views, Function.update_of_ne same, done]

/-- One view changes, and is not finished before or after. -/
theorem Sound.change (sound : plan.Sound build initial s) (status : ViewState P T)
    {stored : Nat → Option T} (before : s.views k ≠ .finished)
    (after : status ≠ .finished) (tracks : plan.Tracks build k stored status)
    (views : s'.views = Function.update s.views k status)
    (held : s'.stored = Function.update s.stored k stored)
    (mem : s'.world.mem = s.world.mem) (puts : s'.world.puts = s.world.puts) :
    plan.Sound build initial s' := by
  have still (j : ι) : s'.views j = .finished ↔ s.views j = .finished := by
    rw [views]
    exact finished_update before after j
  constructor
  · intro j
    rw [views, held]
    by_cases same : j = k
    · subst same
      rwa [Function.update_self, Function.update_self]
    · rw [Function.update_of_ne same, Function.update_of_ne same]
      exact sound.tracks j
  · obtain ⟨spec, settles, shows_⟩ := sound.settles
    refine ⟨spec, by rwa [mem, puts], shows_.congr still fun j done => ?_⟩
    have other : j ≠ k := by
      rintro rfl
      exact before done
    rw [held, Function.update_of_ne other]
  · intro put member
    rw [puts] at member
    obtain ⟨j, done, within⟩ := sound.flight put member
    exact ⟨j, (still j).mpr done, within⟩

theorem Sound.write (sound : plan.Sound build initial s) (unopened : s.views k = .unopened)
    (faithful : (plan.range k).Faithful build (Pod.size T) plan.shbox.len.toNat)
    (garbage : Nat → UInt8) : plan.Sound build initial (plan.next build s (.write k garbage)) := by
  obtain ⟨first, size, start, count, lands⟩ :=
    faithful_lands plan.shbox.layout (plan.valid k) (plan.nonempty k) faithful
  obtain ⟨buf, result, length, _⟩ := PEReference.write_resolved (plan.on k)
    (w := { s.world with garbage }) lands.opened lands.fits
  have bufLen : buf.len = size := Slice.len_eq length
  have fresh : ∀ i, s.stored k i = none := by
    have tracks := sound.tracks k
    rwa [unopened] at tracks
  have tracked : plan.Tracked build k (s.stored k)
      ⟨plan.shbox, plan.range k, plan.target k, buf⟩ :=
    { into := rfl
      range := rfl
      on := rfl
      buffer := ⟨first, by rw [bufLen, lands.opened]⟩
      holds := fun i t value => by rw [fresh i] at value; cases value }
  simp only [next, result, settle]
  exact sound.change (.opened _) (by simp [unopened]) (by simp) tracked rfl
    (Function.update_eq_self k s.stored).symm rfl rfl

theorem Sound.store {view : MutableArrayView P T} {i : Nat} {t : T}
    (sound : plan.Sound build initial s) (opened : s.views k = .opened view)
    (fits : i < view.buf.elems.length) :
    plan.Sound build initial (plan.next build s (.store k i t)) := by
  have tracked := sound.opened opened
  have stored : plan.Tracked build k (Function.update (s.stored k) i (some t))
      (view.assign fun j => if j = i then some t else none) :=
    { into := tracked.into
      range := tracked.range
      on := tracked.on
      buffer := by rw [MutableArrayView.assign, Slice.assign_len]; exact tracked.buffer
      holds := fun j u value => assign_getElem? view.buf fits tracked.holds value }
  simp only [next, ViewPlan.store, opened]
  exact sound.change (.opened _) (by simp [opened]) (by simp) stored rfl rfl rfl rfl

theorem Sound.close {view : MutableArrayView P T} (sound : plan.Sound build initial s)
    (opened : s.views k = .opened view)
    (faithful : (plan.range k).Faithful build (Pod.size T) plan.shbox.len.toNat)
    (garbage : Nat → UInt8) : plan.Sound build initial (ViewPlan.close s k garbage (·.drop build)) := by
  obtain ⟨w, result, mem, puts⟩ := sound.drop_run opened faithful { s.world with garbage }
  simp only [ViewPlan.close, opened, result, settle]
  constructor
  · intro j
    by_cases same : j = k
    · simp [same, Tracks]
    · simpa [same] using sound.tracks j
  · obtain ⟨spec, settles, shows_⟩ := sound.settles
    refine ⟨_, ?_, shows_.put view.buf garbage (sound.opened opened).holds rfl rfl⟩
    simp only [mem, puts]
    apply settles.issue
    intro other member q x
    rintro ⟨covered, covered'⟩
    obtain ⟨j, done, within⟩ := sound.flight other member
    have := covers_unique ((put_covers _ _ q x).mp covered) (within q x covered')
    rw [← this, opened] at done
    cases done
  · intro other member
    simp only [puts] at member
    rcases List.mem_append.mp member with older | newest
    · obtain ⟨j, done, within⟩ := sound.flight other older
      refine ⟨j, ?_, within⟩
      by_cases same : j = k
      · simp [same]
      · simpa [same] using done
    · obtain rfl := List.mem_singleton.mp newest
      exact ⟨k, by simp, fun q x covered => (put_covers _ _ q x).mp covered⟩

theorem Sound.step (faithful : ∀ k, (plan.range k).Faithful build (Pod.size T) plan.shbox.len.toNat)
    (s : Editing ι P T) (event : Event ι T) (sound : plan.Sound build initial s)
    (fires : (plan.machine build).enabled s event) :
    plan.Sound build initial ((plan.machine build).next s event) := by
  cases event with
  | write k garbage => exact sound.write fires (faithful k) garbage
  | store k i t =>
    obtain ⟨view, opened, fits⟩ := fires
    exact sound.store opened fits
  | drop k garbage | finish k garbage =>
    obtain ⟨view, opened⟩ := fires
    exact sound.close opened (faithful k) garbage
  | deliver j => exact sound.deliver j

/-! ### Every other view goes wrong in a run of its own -/

omit [DecidableEq ι] in
theorem other_element (sized : Pod.size T ≠ 0) :
    ∃ t : T, ∀ addr i, element T (fun _ => 0) addr i ≠ t := by
  refine ⟨Pod.ofBytes (List.replicate (Pod.size T) 255), fun addr i same => ?_⟩
  have bytes := congrArg Pod.toBytes same
  rw [toBytes_element, Pod.toBytes_ofBytes _ (List.length_replicate ..)] at bytes
  have first := congrArg (·[0]?) bytes
  simp [window, Nat.pos_of_ne_zero sized] at first

variable (plan k mem)

/-- The state after view `k` alone has been opened, with buffer `buf`. -/
def opening (buf : Slice T) : Editing ι P T :=
  { ViewPlan.start mem with
    views := Function.update (fun _ => .unopened) k
      (.opened ⟨plan.shbox, plan.range k, plan.target k, buf⟩) }

@[simp] theorem opening_views (buf : Slice T) :
    (plan.opening mem k buf).views k =
      .opened ⟨plan.shbox, plan.range k, plan.target k, buf⟩ := by simp [opening]

theorem write_opens {first size : Usize}
    (opened : resolve build (plan.range k) plan.shbox.len = .ok (first, size))
    (fits : size.toNat * Pod.size T ≤ isizeMax) :
    ∃ buf : Slice T, buf.len = size ∧
      (plan.machine build).next (ViewPlan.start mem) (.write k fun _ => 0) =
        plan.opening mem k buf := by
  obtain ⟨buf, result, length, _⟩ := PEReference.write_resolved (plan.on k)
    (w := { World.blank P with mem }) opened fits
  exact ⟨buf, Slice.len_eq length, congrArg (settle (ViewPlan.start mem) k .opened) result⟩

theorem write_panics
    (never : ∀ first size, resolve build (plan.range k) plan.shbox.len = .ok (first, size) →
      ¬ size.toNat * Pod.size T ≤ isizeMax) :
    ((plan.machine build).next (ViewPlan.start mem) (.write k fun _ => 0)).views k = .panicked := by
  obtain ⟨p, result⟩ := PEReference.write_rejected (plan.on k)
    (w := { World.blank P with mem }) never
  have fails : (plan.machine build).next (ViewPlan.start mem) (.write k fun _ => 0) =
      settle (ViewPlan.start mem) k .opened (.panic p { World.blank P with mem }) :=
    congrArg (settle (ViewPlan.start mem) k .opened) result
  rw [fails]
  exact Function.update_self _ _ _

theorem drop_panics {buf : Slice T} {p : Panic}
    (refused : resolve build (plan.range k) buf.len = .error p) :
    ((plan.machine build).next (plan.opening mem k buf) (.drop k fun _ => 0)).views k =
      .panicked := by
  have result : (MutableArrayView.drop build ⟨plan.shbox, plan.range k, plan.target k, buf⟩).run
      { (plan.opening mem k buf).world with garbage := fun _ => 0 } = .panic p _ :=
    MutableArrayView.drop_rejected refused
  simp only [machine, next, ViewPlan.close, opening_views, result, settle]
  exact Function.update_self _ _ _

/-- A view which panics neither when it is opened nor when it is dropped is accepted twice. -/
theorem resolved_of_landed
    (landed : ∀ events, (plan.machine build).Admits (ViewPlan.start mem) events →
      plan.Landed mem ((plan.machine build).after (ViewPlan.start mem) events)) :
    ∃ first size start count,
      resolve build (plan.range k) plan.shbox.len = .ok (first, size) ∧
      size.toNat * Pod.size T ≤ isizeMax ∧
      resolve build (plan.range k) size = .ok (start, count) := by
  by_contra refused
  rcases resolve_cases build (plan.range k) plan.shbox.len (Pod.size T) with
    ⟨first, size, opened, fits⟩ | never
  · obtain ⟨buf, rfl, opens⟩ := plan.write_opens mem k opened fits
    cases again : resolve build (plan.range k) buf.len with
    | ok pair => exact refused ⟨first, buf.len, pair.1, pair.2, opened, fits, again⟩
    | error p =>
      have drops : (plan.machine build).Admits (ViewPlan.start mem)
          [.write k fun _ => 0, .drop k fun _ => 0] := by
        rw [Machine.admits_cons, opens]
        exact ⟨rfl, ⟨_, plan.opening_views mem k buf⟩, trivial⟩
      apply (landed _ drops).no_panic k
      simpa only [Machine.after_cons, Machine.after_nil, opens] using plan.drop_panics mem k again
  · exact (landed [.write k fun _ => 0] ⟨rfl, trivial⟩).no_panic k
      (plan.write_panics mem k never)

/-- The state after element `i` has been stored through the view as well. -/
def holding (buf : Slice T) (i : Nat) (t : T) : Editing ι P T :=
  { plan.opening mem k buf with
    views := Function.update (plan.opening mem k buf).views k
      (.opened ⟨plan.shbox, plan.range k, plan.target k,
        buf.assign fun j => if j = i then some t else none⟩)
    stored := Function.update (plan.opening mem k buf).stored k
      (Function.update ((plan.opening mem k buf).stored k) i (some t)) }

theorem store_holds (build : Build) (buf : Slice T) (i : Nat) (t : T) :
    (plan.machine build).next (plan.opening mem k buf) (.store k i t) =
      plan.holding mem k buf i t := by
  simp only [machine, next, ViewPlan.store, opening_views]
  rfl

@[simp] theorem holding_views (buf : Slice T) (i : Nat) (t : T) :
    (plan.holding mem k buf i t).views k = .opened ⟨plan.shbox, plan.range k, plan.target k,
      buf.assign fun j => if j = i then some t else none⟩ := by simp [holding]

@[simp] theorem holding_stored (buf : Slice T) (i : Nat) (t : T) :
    (plan.holding mem k buf i t).stored k i = some t := by simp [holding]

theorem drop_sends {buf : Slice T} {start count : Usize} (i : Nat) (t : T)
    (again : resolve build (plan.range k) buf.len = .ok (start, count)) :
    (plan.machine build).next (plan.holding mem k buf i t) (.drop k fun _ => 0) =
      settle (plan.holding mem k buf i t) k (fun _ => .finished)
        (.ok () (World.sent { World.blank P with mem } plan.shbox start
          (buf.assign fun j => if j = i then some t else none) (count.toNat * Pod.size T)
          (plan.target k))) := by
  have result : (MutableArrayView.drop build ⟨plan.shbox, plan.range k, plan.target k,
        buf.assign fun j => if j = i then some t else none⟩).run
      { (plan.holding mem k buf i t).world with garbage := fun _ => 0 } = .ok () _ :=
    MutableArrayView.drop_resolved (by rw [Slice.assign_len]; exact again)
  simp only [machine, next, ViewPlan.close, holding_views, result]
  rfl

/-- Open view `k`, store one element, drop the view and wait. -/
def oneStore (i : Nat) (t : T) : List (Event ι T) :=
  [.write k fun _ => 0, .store k i t, .drop k fun _ => 0, .deliver 0]

theorem oneStore_run {first size start count : Usize} {i : Nat} (t : T)
    (opened : resolve build (plan.range k) plan.shbox.len = .ok (first, size))
    (fits : size.toNat * Pod.size T ≤ isizeMax)
    (again : resolve build (plan.range k) size = .ok (start, count)) (inside : i < size.toNat) :
    (plan.machine build).Admits (ViewPlan.start mem) (oneStore k i t) ∧
    ∃ source, element T source 0 i = t ∧
      let s := (plan.machine build).after (ViewPlan.start mem) (oneStore k i t)
      s.views k = .finished ∧ s.stored k i = some t ∧ s.world.puts = [] ∧
      s.world.mem = (⟨plan.target k, plan.shbox.offset start,
        window source 0 (count.toNat * Pod.size T)⟩ : Write (Fin P) UInt8).apply mem := by
  obtain ⟨buf, rfl, opens⟩ := plan.write_opens mem k opened fits
  rw [Slice.len_toNat] at inside
  have loaded : (buf.assign fun j => if j = i then some t else none).elems[i]? = some t := by
    simp [Slice.assign, inside]
  have stores := plan.store_holds mem k build buf i t
  have drops := plan.drop_sends mem k i t again
  constructor
  · refine ⟨rfl, ?_⟩
    rw [opens]
    refine ⟨⟨_, plan.opening_views mem k buf, inside⟩, ?_⟩
    rw [stores]
    refine ⟨⟨_, plan.holding_views mem k buf i t⟩, ?_⟩
    rw [drops]
    exact ⟨Nat.zero_lt_one, trivial⟩
  · refine ⟨_, Slice.memory_element _ (fun _ => 0) loaded, ?_⟩
    simp only [oneStore, Machine.after_cons, Machine.after_nil, opens, stores, drops]
    refine ⟨by simp [machine, next, settle], ?_, rfl, rfl⟩
    simp [machine, next, settle]

omit [DecidableEq ι] in
/-- The first elements behind the array belong to no view. -/
theorem behind_uncovered {x : Nat} (behind : plan.shbox.len.toNat * Pod.size T ≤ x)
    (q : Fin P) : ¬ plan.Covers k q (plan.shbox.addr + x) := by
  rintro ⟨_, _, high⟩
  have := Nat.mul_le_mul_right (Pod.size T) (plan.valid k).2
  simp only [past, RangeBounds.hi] at *
  omega

section

variable {first size start count : Usize}

/-- A view does not land whose put has an element for the place behind the array. -/
theorem overrun_of_landed (sized : Pod.size T ≠ 0)
    (opened : resolve build (plan.range k) plan.shbox.len = .ok (first, size))
    (fits : size.toNat * Pod.size T ≤ isizeMax)
    (again : resolve build (plan.range k) size = .ok (start, count))
    (low : start.toNat ≤ plan.shbox.len.toNat)
    (longer : plan.shbox.len.toNat - start.toNat < size.toNat)
    (landed : ∀ events, (plan.machine build).Admits (ViewPlan.start fun _ _ => 0) events →
      plan.Landed (fun _ _ => 0)
        ((plan.machine build).after (ViewPlan.start fun _ _ => 0) events)) :
    count.toNat ≤ plan.shbox.len.toNat - start.toNat := by
  obtain ⟨t, other⟩ := other_element (T := T) sized
  obtain ⟨admitted, source, loaded, _, _, settled, after⟩ :=
    plan.oneStore_run (fun _ _ => 0) k t opened fits again longer
  have kept := ((landed _ admitted).shows_ settled).kept (plan.target k)
  rw [after] at kept
  by_contra reached
  have put := element_put_inside (T := T) (fun _ => 0) source plan.shbox.addr start.toNat
    count.toNat (Nat.lt_of_not_le reached)
  rw [Nat.add_sub_cancel' low, loaded] at put
  refine absurd ?_ (other plan.shbox.addr plan.shbox.len.toNat)
  rw [← put]
  apply element_congr
  intro x _
  have unchanged := kept (plan.shbox.addr + (plan.shbox.len.toNat * Pod.size T + x))
    fun j _ => plan.behind_uncovered j (Nat.le_add_right _ x) _
  rw [Write.apply, Function.update_self, ← Nat.add_assoc] at unchanged
  exact unchanged.symm

/-- A view does not land whose put leaves out an element of its range. -/
theorem complete_of_landed (sized : Pod.size T ≠ 0)
    (opened : resolve build (plan.range k) plan.shbox.len = .ok (first, size))
    (fits : size.toNat * Pod.size T ≤ isizeMax)
    (again : resolve build (plan.range k) size = .ok (start, count))
    (place : start.toNat = plan.first k) {i : Nat} (inRange : plan.first k + i < plan.past k)
    (inBuffer : i < size.toNat)
    (landed : ∀ events, (plan.machine build).Admits (ViewPlan.start fun _ _ => 0) events →
      plan.Landed (fun _ _ => 0)
        ((plan.machine build).after (ViewPlan.start fun _ _ => 0) events)) :
    i < count.toNat := by
  obtain ⟨t, other⟩ := other_element (T := T) sized
  obtain ⟨admitted, source, _, finished, stored, settled, after⟩ :=
    plan.oneStore_run (fun _ _ => 0) k t opened fits again inBuffer
  have shown := ((landed _ admitted).shows_ settled).stored k finished _ t stored inRange
  by_contra missed
  rw [after, Write.apply, Function.update_self, ← place, Shbox.offset,
    element_put_after _ _ _ _ _ (Nat.le_of_not_lt missed)] at shown
  exact absurd shown (other _ _)

end

/-- With elements of some size, an unbounded range lands only from element 2 on. -/
theorem third_of_landed (sized : Pod.size T ≠ 0) (unbounded : (plan.range k).endBound = .unbounded)
    (landed : ∀ events, (plan.machine build).Admits (ViewPlan.start fun _ _ => 0) events →
      plan.Landed (fun _ _ => 0)
        ((plan.machine build).after (ViewPlan.start fun _ _ => 0) events)) :
    (plan.range k).lo = 2 := by
  obtain ⟨first, size, start, count, opened, fits, again⟩ := plan.resolved_of_landed _ k landed
  obtain ⟨place, sized_⟩ := (resolve_since (plan.valid k) unbounded).mp opened
  obtain ⟨rfl, below, counted⟩ := (reresolve_unbounded opened unbounded).mp again
  have bound := plan.shbox.len_small sized
  simp only [isizeMax] at bound
  have past : plan.past k = plan.shbox.len.toNat := RangeBounds.hi_unbounded unbounded
  have first : plan.first k = (plan.range k).lo := rfl
  have nonempty : plan.first k < plan.past k := plan.nonempty k
  have size_eq : size.toNat = plan.shbox.len.toNat - (plan.range k).lo + 1 := by omega
  have count_eq : count.toNat = size.toNat - start.toNat + 1 := by omega
  -- The put must neither reach behind the array nor leave out its last element.
  have short := plan.overrun_of_landed k sized opened fits again (by omega) (by omega) landed
  have long := plan.complete_of_landed k sized opened fits again place
    (i := plan.shbox.len.toNat - 1 - start.toNat) (by omega) (by omega) landed
  omega

/-- Only faithful views land in every run. -/
theorem faithful_of_landed
    (landed : ∀ mem events, (plan.machine build).Admits (ViewPlan.start mem) events →
      plan.Landed mem ((plan.machine build).after (ViewPlan.start mem) events)) :
    (plan.range k).Faithful build (Pod.size T) plan.shbox.len.toNat := by
  obtain ⟨first, size, start, count, opened, fits, again⟩ :=
    plan.resolved_of_landed _ k (landed fun _ _ => 0)
  unfold RangeBounds.Faithful
  split_ifs with bounded sized
  · obtain ⟨first', size', opened', _, size_eq⟩ :=
      resolve_bounded build (plan.valid k) (plan.nonempty k) bounded
    cases opened.symm.trans opened'
    obtain ⟨_, _, last_le⟩ := (reresolve_bounded opened bounded).mp again
    have nonempty := plan.nonempty k
    rw [RangeBounds.last_nonempty build bounded nonempty] at last_le
    simp only [RangeBounds.hi] at *
    omega
  · exact plan.third_of_landed k sized (not_not.mp bounded) (landed _)
  · exact (reresolve_since_iff (plan.valid k) (plan.nonempty k) (not_not.mp bounded)).mp
      ⟨first, size, start, count, opened, again⟩

end ViewPlan

/-- Views land in every run, without a panic and without touching anything else,
exactly when each of their ranges is faithful. -/
theorem views_land_iff [DecidableEq ι] (build : Build) (plan : ViewPlan ι P T) :
    (∀ initial events, (plan.machine build).Admits (ViewPlan.start initial) events →
      plan.Landed initial ((plan.machine build).after (ViewPlan.start initial) events)) ↔
    ∀ k, (plan.range k).Faithful build (Pod.size T) plan.shbox.len.toNat := by
  constructor
  · intro landed k
    exact plan.faithful_of_landed k landed
  · intro faithful initial events run
    exact (Machine.invariant _ (ViewPlan.Sound.step faithful) ViewPlan.Sound.start run).landed

/-- The back half of an array of eight, opened as `4..8`. -/
def backHalf : ViewPlan Unit 2 UInt8 where
  shbox := ⟨16, 8, by decide⟩
  on _ := ⟨⟨1⟩, by decide⟩
  range _ := .span 4 8
  valid _ := by decide
  nonempty _ := by decide
  apart _ _ different := absurd rfl different

/-- Dropping the view of the back half panics. -/
theorem backHalf_panics :
    ¬ ∀ initial events, (backHalf.machine .release).Admits (ViewPlan.start initial) events →
      backHalf.Landed initial
        ((backHalf.machine .release).after (ViewPlan.start initial) events) := by
  intro landed
  have run := landed (fun _ _ => 0) [.write () fun _ => 0, .drop () fun _ => 0]
    ⟨rfl, ⟨_, rfl⟩, trivial⟩
  exact run.no_panic () rfl

end OpenShmem
