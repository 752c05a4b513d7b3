import OpenShmem.NbiRuns

/-! Who owns the buffers of non-blocking gets. `quiet` turns the box of a slice
operation over to the caller, or frees it once a vector has its elements; the box of a
single operation is forgotten together with the operation it was read out of. -/
namespace OpenShmem

variable {P : Nat} {T : Type} [Pod T] {α β : Type}

/-- A buffer without bytes has no allocation. Any other has an owner, or was freed once. -/
def Block.Accounted (block : Block) : Prop :=
  block.frees = if block.bytes ≠ [] ∧ block.owner = none then 1 else 0

instance (block : Block) : Decidable block.Accounted := inferInstanceAs (Decidable (_ = _))

def World.Accounted (w : World P) : Prop := ∀ block ∈ w.heap, block.Accounted

/-! ### What `after_quiet` does to each buffer -/

inductive Fate where
  | forgotten
  | handedOver
  | freed
  deriving DecidableEq, Repr

def Fate.change : Fate → Block → Block
  | .forgotten => Block.forget
  | .handedOver => ({ · with owner := some .boxed })
  | .freed => fun block => { block with owner := some .boxed }.free

/-- The buffers in a value, with what becomes of each. -/
def Nbis.fates : {A : Type} → Nbis A → List (Nat × Fate)
  | _, @Nbis.op _ _ pending => [(pending.inner, .forgotten)]
  | _, @Nbis.slice _ _ pending => [(pending.inner, .handedOver)]
  | _, @Nbis.vecSlice _ _ pending => pending.map fun op => (op.inner, .freed)
  | _, @Nbis.vecOp _ _ pending => pending.map fun op => (op.inner, .forgotten)
  | _, .unit => []
  | _, .tuple _ components => (List.ofFn fun i => (components i).fates).flatten

def World.meet (w : World P) (fates : List (Nat × Fate)) : World P :=
  fates.foldl (fun w f => w.modifyBlock f.1 f.2.change) w

/-- The computation returns, and leaves each buffer to its fate. -/
def Meets (x : Shmem P α) (fates : List (Nat × Fate)) : Prop :=
  ∀ w, ∃ v, x.run w = .ok v (w.meet fates)

section

variable {fates first second : List (Nat × Fate)} {w : World P}

theorem meets_pure (v : α) : Meets (pure v : Shmem P α) [] := fun _ => ⟨v, rfl⟩

theorem Meets.bind {x : Shmem P α} {f : α → Shmem P β} (meets : Meets x first)
    (next : ∀ a, Meets (f a) second) : Meets (x >>= f) (first ++ second) := by
  intro w
  obtain ⟨a, ran⟩ := meets w
  obtain ⟨b, ran'⟩ := next a (w.meet first)
  refine ⟨b, ?_⟩
  rw [bind_ok ran, ran', World.meet, World.meet, World.meet, List.foldl_append]

theorem Meets.map {x : Shmem P α} (meets : Meets x fates) (f : α → β) :
    Meets (x >>= fun a => pure (f a)) fates := by
  have mapped := meets.bind (fun a => meets_pure (P := P) (f a))
  rwa [List.append_nil] at mapped

theorem meets_useBlock (d : Nat) (read : Block → α) (fate : Fate) :
    Meets (useBlock d read fate.change : Shmem P α) [(d, fate)] := fun _ => ⟨_, rfl⟩

theorem meets_op (op : PendingNbiOp T) :
    Meets (op.intoInner : Shmem P T) [(op.inner, .forgotten)] := meets_useBlock _ _ .forgotten

theorem meets_slice (op : PendingNbiSliceOp T) :
    Meets (op.intoInner : Shmem P (List T)) [(op.inner, .handedOver)] :=
  meets_useBlock _ _ .handedOver

theorem meets_part (op : PendingNbiSliceOp T) : Meets (P := P) (do
      let part ← op.intoInner
      dropBox op.inner
      return part) [(op.inner, .freed)] := by
  intro w
  obtain ⟨v, ran⟩ := meets_slice (P := P) op w
  refine ⟨v, ?_⟩
  rw [bind_ok ran]
  simp only [World.meet, List.foldl_cons, List.foldl_nil, World.modifyBlock, run_bind, dropBox,
    useBlock, run_pure, List.modify_modify_eq]
  rfl

theorem meets_inOrder {items : List α} {x : α → Shmem P β} {fate : α → Nat × Fate}
    (each : ∀ a, Meets (x a) [fate a]) : Meets (inOrder (items.map x)) (items.map fate) := by
  induction items with
  | nil => exact meets_pure []
  | cons a rest ih => exact (each a).bind fun v => ih.map (v :: ·)

theorem meets_inTuple {k : Nat} {A : Fin k → Type} {x : ∀ i, Shmem P (A i)}
    {fates : Fin k → List (Nat × Fate)} (each : ∀ i, Meets (x i) (fates i)) :
    Meets (inTuple x) (List.ofFn fates).flatten := by
  induction k with
  | zero => exact meets_pure _
  | succ k ih =>
    rw [List.ofFn_succ, List.flatten_cons]
    exact (each 0).bind fun v => (ih fun i => each i.succ).map (Fin.cons v : _ → ∀ i, A i)

theorem Nbis.afterQuiet_meets {A : Type} (nbis : Nbis A) :
    Meets (nbis.afterQuiet : Shmem P A) nbis.fates := by
  induction nbis with
  | op pending => exact meets_op pending
  | slice pending => exact meets_slice pending
  | vecSlice pending => exact (meets_inOrder fun op => meets_part op).map List.flatten
  | vecOp pending => exact meets_inOrder fun op => meets_op op
  | unit => exact meets_pure ()
  | tuple arity components ih => exact meets_inTuple ih

namespace Nbis

theorem fates_blocks {A : Type} (nbis : Nbis A) : nbis.fates.map (·.1) = nbis.blocks := by
  induction nbis with
  | op | slice | unit => rfl
  | vecSlice pending | vecOp pending => simp [fates, blocks, ops, Function.comp_def]
  | tuple arity components ih =>
    simp only [fates, blocks, ops, List.map_flatten, List.map_ofFn, Function.comp_def, ih]

/-- Only the boxes of single operations are forgotten. -/
theorem forgotten_iff {A : Type} (nbis : Nbis A) (d : Nat) :
    (d, Fate.forgotten) ∈ nbis.fates ↔ (d, Owner.nbiOp) ∈ nbis.ops := by
  induction nbis with
  | op | slice | unit | vecSlice | vecOp => simp [fates, ops]
  | tuple arity components ih => simp [fates, ops, List.mem_ofFn, ih]

end Nbis

/-! ### Blocks one at a time -/

variable {d e : Nat}

theorem accounted_iff_block : w.Accounted ↔ ∀ d, (w.block d).Accounted := by
  constructor
  · intro accounted d
    cases found : w.heap[d]? with
    | none =>
      rw [World.block_none found]
      rfl
    | some block =>
      rw [World.block_some found]
      exact accounted block (List.mem_of_getElem? found)
  · intro each block member
    obtain ⟨d, found⟩ := List.mem_iff_getElem?.mp member
    have accounted := each d
    rwa [World.block_some found] at accounted

theorem owned_inside (held : (w.block d).owner ≠ none) : d < w.heap.length := by
  by_contra outside
  apply held
  rw [World.block, List.getD_eq_default _ _ (Nat.le_of_not_lt outside)]

theorem modifyBlock_self (change : Block → Block) (inside : d < w.heap.length) :
    (w.modifyBlock d change).block d = change (w.block d) := by
  simp [World.block, World.modifyBlock, inside]

theorem modifyBlock_other (change : Block → Block) (different : d ≠ e) :
    (w.modifyBlock d change).block e = w.block e := by
  simp [World.block, World.modifyBlock, List.getD_eq_getElem?_getD, different]

theorem meet_other (fresh : d ∉ fates.map (·.1)) : (w.meet fates).block d = w.block d := by
  induction fates generalizing w with
  | nil => rfl
  | cons f rest ih =>
    rw [List.map_cons, List.mem_cons, not_or] at fresh
    exact (ih fresh.2).trans (modifyBlock_other _ (Ne.symm fresh.1))

theorem meet_block {f : Nat × Fate} (nodup : (fates.map (·.1)).Nodup) (member : f ∈ fates)
    (inside : f.1 < w.heap.length) : (w.meet fates).block f.1 = f.2.change (w.block f.1) := by
  induction fates generalizing w with
  | nil => cases member
  | cons g rest ih =>
    rw [List.map_cons, List.nodup_cons] at nodup
    rcases List.mem_cons.mp member with rfl | later
    · exact (meet_other nodup.1).trans (modifyBlock_self _ inside)
    · have different : g.1 ≠ f.1 := by
        intro same
        exact nodup.1 (same ▸ List.mem_map_of_mem later)
      have met := ih (w := w.modifyBlock g.1 g.2.change) nodup.2 later
        (by simpa [World.modifyBlock] using inside)
      rw [modifyBlock_other _ different] at met
      exact met

/-- A buffer with an owner stays accounted for, unless it is forgotten with bytes in it. -/
theorem Fate.change_accounted (fate : Fate) {block : Block} (held : block.owner ≠ none)
    (accounted : block.Accounted) :
    (fate.change block).Accounted ↔ (fate = .forgotten → block.bytes = []) := by
  have kept : block.frees = 0 := accounted.trans (if_neg fun both => held both.2)
  cases fate with
  | forgotten => simp [Fate.change, Block.forget, Block.Accounted, kept]
  | handedOver => simp [Fate.change, Block.Accounted, kept]
  | freed => simp [Fate.change, Block.free, Block.Accounted, kept]

theorem meet_accounted (nodup : (fates.map (·.1)).Nodup) (accounted : w.Accounted)
    (held : ∀ f ∈ fates, (w.block f.1).owner ≠ none) :
    (w.meet fates).Accounted ↔ ∀ f ∈ fates, f.2 = .forgotten → (w.block f.1).bytes = [] := by
  rw [accounted_iff_block] at accounted ⊢
  constructor
  · intro after f member
    have met := after f.1
    rw [meet_block nodup member (owned_inside (held f member))] at met
    exact (f.2.change_accounted (held f member) (accounted f.1)).mp met
  · intro empty d
    by_cases listed : d ∈ fates.map (·.1)
    · obtain ⟨f, member, rfl⟩ := List.mem_map.mp listed
      rw [meet_block nodup member (owned_inside (held f member))]
      exact (f.2.change_accounted (held f member) (accounted f.1)).mpr (empty f member)
    · rw [meet_other listed]
      exact accounted d

/-! ### Deliveries -/

/-- All of a block but what its bytes are. -/
def Block.status (block : Block) : Option Owner × Nat × Nat :=
  (block.owner, block.frees, block.bytes.length)

theorem Block.Accounted.congr {block block' : Block} (accounted : block.Accounted)
    (same : block'.status = block.status) : block'.Accounted := by
  simp only [Block.status, Prod.mk.injEq] at same
  obtain ⟨owner, frees, length⟩ := same
  simp only [Block.Accounted, ne_eq, ← List.length_eq_zero_iff, owner, frees, length] at accounted ⊢
  exact accounted

theorem Block.receive_status (block : Block) (cells : List UInt8) :
    (block.receive cells).status = block.status := by
  have length : min cells.length block.bytes.length + (block.bytes.length - cells.length) =
      block.bytes.length := by omega
  simp [Block.status, Block.receive, Nat.min_comm, length]

theorem deliverGet_status (w : World P) (k d : Nat) :
    ((w.deliverGet k).block d).status = (w.block d).status := by
  unfold World.deliverGet
  cases chosen : w.gets[k]? with
  | none => rfl
  | some get =>
    by_cases same : get.dest = d
    · by_cases inside : d < w.heap.length
      · subst same
        exact (congrArg Block.status (modifyBlock_self _ inside)).trans (Block.receive_status _ _)
      · simp [World.block, inside]
    · exact congrArg Block.status (modifyBlock_other (w := w) _ same)

theorem quiet_status (order : List Nat) (w : World P) (d : Nat) :
    ((w.quiet order).block d).status = (w.block d).status :=
  World.quiet_induction (fun w' => (w'.block d).status = (w.block d).status)
    (fun w' k same => (deliverGet_status w' k d).trans same) order rfl

theorem accounted_congr {w w' : World P} (accounted : w.Accounted)
    (same : ∀ d, (w'.block d).status = (w.block d).status) : w'.Accounted := by
  rw [accounted_iff_block] at accounted ⊢
  intro d
  exact (accounted d).congr (same d)

end

namespace Running

variable {build : Build} {s : Running P}

/-- The single operations passed to `quiet` are for elements without bytes. -/
def SinglesEmpty (s : Running P) : Event P → Prop
  | .quiet _ nbis => ∀ d, (d, Owner.nbiOp) ∈ nbis.ops → (s.world.block d).bytes = []
  | _ => True

theorem accounted_requested {w : World P} (accounted : w.Accounted) (owner : Owner) (pe : Fin P)
    (remote nbytes : Nat) : (PEReference.requested w owner pe remote nbytes).Accounted := by
  intro block member
  rcases List.mem_append.mp member with older | newest
  · exact accounted block older
  · obtain rfl := List.mem_singleton.mp newest
    simp [Block.Accounted]

theorem accounted_called {after : Running P} (accounted : s.world.Accounted)
    (called : Called build s after) : after.world.Accounted := by
  cases called with
  | panicked => exact accounted
  | requested owner pending pe remote nbytes r asks found =>
    exact accounted_requested accounted owner pe remote nbytes

/-- A call of `quiet` keeps its buffers accounted for exactly when its single operations
have no bytes. -/
theorem accounted_quiet (build : Build) {A : Type} (accounted : s.world.Accounted) (order : List Nat)
    (nbis : Nbis A) (owned : nbis.Owned s.world) :
    (s.next build (.quiet order nbis)).world.Accounted ↔ s.SinglesEmpty (.quiet order nbis) := by
  have nodup : (nbis.fates.map (·.1)).Nodup := by
    rw [nbis.fates_blocks]
    exact owned.nodup
  have same (d : Nat) := quiet_status order s.world d
  have held : ∀ f ∈ nbis.fates, ((s.world.quiet order).block f.1).owner ≠ none := by
    intro f member
    obtain ⟨op, pending, block⟩ := List.mem_map.mp (nbis.fates_blocks ▸ List.mem_map_of_mem member)
    have owner : ((s.world.quiet order).block f.1).owner = (s.world.block f.1).owner :=
      congrArg (·.1) (same f.1)
    rw [owner, ← block, owned.pending op pending]
    simp
  obtain ⟨value, ran⟩ := nbis.afterQuiet_meets (s.world.quiet order)
  have ran : (ctxQuiet order nbis).run s.world = .ok value _ := ran
  simp only [next, ran, settle]
  rw [meet_accounted nodup (accounted_congr accounted same) held, SinglesEmpty]
  have bytes (d : Nat) : ((s.world.quiet order).block d).bytes = [] ↔
      (s.world.block d).bytes = [] := by
    have length := congrArg (·.2.2) (same d)
    simp only [Block.status] at length
    rw [← List.length_eq_zero_iff, length, List.length_eq_zero_iff]
  constructor
  · intro empty d single
    exact (bytes d).mp (empty (d, .forgotten) ((nbis.forgotten_iff d).mpr single) rfl)
  · intro empty f member forgotten
    obtain ⟨d, fate⟩ := f
    obtain rfl : fate = .forgotten := forgotten
    exact (bytes d).mpr (empty d ((nbis.forgotten_iff d).mp member))

theorem accounted_step (s : Running P) (e : Event P) (accounted : s.world.Accounted)
    (fires : (machine P build).enabled s e) :
    ((machine P build).next s e).world.Accounted ↔ s.SinglesEmpty e := by
  cases e with
  | getSingleNbi self shbox idx =>
    exact iff_of_true
      (accounted_called accounted (called_getSingleNbi build s self shbox idx)) trivial
  | readNbi self shbox range =>
    exact iff_of_true (accounted_called accounted (called_readNbi build s self shbox range)) trivial
  | deliver k =>
    exact iff_of_true (accounted_congr accounted (deliverGet_status s.world k)) trivial
  | quiet order nbis => exact accounted_quiet build accounted order nbis fires.2
  | dropBox d =>
    -- Freeing the box of `d` is the fate of a box whose elements are moved out.
    have boxed : (s.world.block d).owner = some .boxed := fires
    have nodup : ([(d, Fate.freed)].map (·.1)).Nodup := List.nodup_singleton d
    have freed := (meet_accounted nodup accounted (by simp [boxed])).mpr (by simp)
    exact iff_of_true freed trivial
  | catchUnwind | store => exact iff_of_true accounted trivial

end Running

/-- In a run of non-blocking gets every buffer is owned or was freed once at every
moment exactly when no single operation with bytes is passed to `quiet`. -/
theorem accounted_iff (P : Nat) (build : Build) (mem : Fin P → Nat → UInt8)
    (garbage : Nat → UInt8) {events : List (Running.Event P)}
    (run : (Running.machine P build).Admits (Running.start mem garbage) events) :
    (∀ past, past <+: events →
      ((Running.machine P build).after (Running.start mem garbage) past).world.Accounted) ↔
    ((Running.machine P build).under Running.SinglesEmpty).Admits
      (Running.start mem garbage) events := by
  have initial : (Running.start mem garbage).world.Accounted := by
    intro block member
    cases member
  exact (Running.machine P build).invariant_iff Running.accounted_step initial run

/-- A slice is fetched, and its box is dropped in the end. -/
def fetchAndDrop (self : PEReference 2) : List (Running.Event 2) :=
  [.readNbi self pairOfBytes (.span 0 2),
    .quiet [] (.slice (⟨0, 2⟩ : PendingNbiSliceOp UInt8)), .dropBox 0]

theorem accounted_slice :
    ((Running.machine 2 .debug).after (Running.start (fun _ _ => 0) fun _ => 0)
      (fetchAndDrop ⟨⟨1⟩, by decide⟩)).world.Accounted := by
  have run : (Running.machine 2 .debug).Admits (Running.start (fun _ _ => 0) fun _ => 0)
      (fetchAndDrop ⟨⟨1⟩, by decide⟩) := ⟨rfl, ⟨rfl, by decide, by decide⟩, rfl, trivial⟩
  refine (accounted_iff 2 .debug _ _ run).mpr
    ⟨⟨rfl, trivial⟩, ⟨⟨rfl, by decide, by decide⟩, ?_⟩, ⟨rfl, trivial⟩, trivial⟩ _
    (List.prefix_refl _)
  intro d single
  cases List.mem_singleton.mp single

/-- A byte fetched with `get_single_nbi` leaves its buffer behind without an owner. -/
theorem single_leaks :
    ¬ ∀ events, (Running.machine 2 .debug).Admits (Running.start (fun _ _ => 0) fun _ => 0) events →
      ((Running.machine 2 .debug).after (Running.start (fun _ _ => 0) fun _ => 0)
        events).world.Accounted := by
  intro accounted
  have leaked := accounted [.getSingleNbi ⟨⟨1⟩, by decide⟩ pairOfBytes 0,
    .quiet [] (.op (⟨0⟩ : PendingNbiOp UInt8))] ⟨rfl, ⟨rfl, ⟨by decide, by decide⟩⟩, trivial⟩
  exact absurd (leaked _ (.head _)) (by decide)

end OpenShmem
