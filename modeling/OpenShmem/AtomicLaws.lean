import OpenShmem.AtomicRuns

/-! What the PEs can rely on when they share a symmetric word and use it in one way only. -/
namespace OpenShmem

open Serial

variable {P w : Nat}

/-! ### Additions -/

/-- What an operation adds. -/
def AtomicOp.plus : AtomicOp w → Option (BitVec w)
  | .atomicInc | .atomicFetchInc => some 1
  | .atomicAdd plus | .atomicFetchAdd plus => some plus
  | .atomicFetch | .fetch => some 0
  | _ => none

/-- How many values an operation which adds takes for itself. -/
def AtomicOp.share (op : AtomicOp w) : Nat := (op.plus.getD 0).toNat

theorem AtomicOp.update_plus {op : AtomicOp w} {plus : BitVec w} (adds : op.plus = some plus)
    (v : BitVec w) : op.update v = v + plus := by
  cases op <;> simp only [AtomicOp.plus, reduceCtorEq, Option.some.injEq] at adds <;> subst adds <;>
    first | rfl | exact (BitVec.add_zero v).symm

/-- Additions which do not overflow go up, each by its share. -/
theorem shares_ascend {s t : BitVec w} {log : List (AtomicOp w × BitVec w)}
    (chain : Chain AtomicOp.update s log t) (adds : ∀ x ∈ log, x.1.plus.isSome)
    (fits : s.toNat + (log.map fun x => x.1.share).sum < 2 ^ w) :
    log.Pairwise (fun x y => x.2.toNat + x.1.share ≤ y.2.toNat) ∧ (∀ x ∈ log, s.toNat ≤ x.2.toNat) ∧
      t.toNat = s.toNat + (log.map fun x => x.1.share).sum := by
  induction log generalizing s with
  | nil =>
    obtain rfl : s = t := chain
    exact ⟨List.Pairwise.nil, fun x member => absurd member List.not_mem_nil, rfl⟩
  | cons x rest ih =>
    obtain ⟨found, later⟩ := chain
    obtain ⟨plus, adds_x⟩ := Option.isSome_iff_exists.mp (adds x List.mem_cons_self)
    have share : x.1.share = plus.toNat := by rw [AtomicOp.share, adds_x, Option.getD_some]
    rw [List.map_cons, List.sum_cons] at fits
    have next : (x.1.update s).toNat = s.toNat + x.1.share := by
      rw [AtomicOp.update_plus adds_x, BitVec.toNat_add, share, Nat.mod_eq_of_lt (by omega)]
    obtain ⟨ascend, above, total⟩ := ih later
      (fun y member => adds y (List.mem_cons_of_mem x member)) (by omega)
    refine ⟨List.pairwise_cons.mpr ⟨fun y member => ?_, ascend⟩, fun y member => ?_, ?_⟩
    · have := above y member
      rw [found]
      omega
    · rcases List.mem_cons.mp member with rfl | member
      · exact Nat.le_of_eq (congrArg BitVec.toNat found).symm
      · have := above y member
        omega
    · rw [List.map_cons, List.sum_cons]
      omega

/-- The values which additions to one word take for themselves do not overlap, and together
they are all from the first to the last. -/
structure Words.Tickets (initial : Fin P → BitVec w) (s : Words P w) (q : Fin P) : Prop where
  disjoint : (s.served q).Pairwise fun x y => x.2.toNat + x.1.share ≤ y.2.toNat
  total : s.onWay q = [] → (s.mem q).toNat = (initial q).toNat + ((s.called q).map AtomicOp.share).sum

theorem fetch_add_tickets (shbox : Nat) (initial : Fin P → BitVec w) (events : List (Words.Event w))
    (run : (Words.machine P w shbox).Admits (Words.start initial) events) (q : Fin P)
    (adds : ∀ op ∈ ((Words.machine P w shbox).after (Words.start initial) events).called q,
      op.plus.isSome)
    (fits : (initial q).toNat + ((((Words.machine P w shbox).after (Words.start initial)
      events).called q).map AtomicOp.share).sum < 2 ^ w) :
    Words.Tickets initial ((Words.machine P w shbox).after (Words.start initial) events) q := by
  have sound := Words.Sound.run run
  have shares := ((sound.called q).map AtomicOp.share).sum_nat
  rw [List.map_append, List.sum_append, List.map_map] at shares
  obtain ⟨ascend, _, total⟩ := shares_ascend (sound.chain q)
    (fun x member => adds x.1 (sound.served_called member)) (by
      rw [← shares] at fits
      exact Nat.lt_of_le_of_lt (by simp [Function.comp_def]) fits)
  refine ⟨ascend, fun landed => ?_⟩
  rw [landed] at shares
  rw [total, ← shares]
  rfl

/-- Three increments of which two return a ticket, on the word of PE 1. -/
theorem fetch_add_tickets_three :
    Words.Tickets (fun _ => 250) ((Words.machine 2 8 16).after (Words.start fun _ => 250)
      [.call .atomicInc ⟨1⟩, .call .atomicFetchInc ⟨1⟩, .land 0, .call (.atomicFetchAdd 3) ⟨1⟩]) 1 :=
  fetch_add_tickets 16 _ _ (by decide) 1 (by decide) (by decide)

/-! ### Elections -/

/-- What an operation proposes where the word is `unset`. -/
def AtomicOp.proposes : AtomicOp w → Option (BitVec w)
  | .atomicCompareSwap _ then_set_to => some then_set_to
  | _ => none

/-- An operation of an election proposes a value of its own or only looks. -/
def AtomicOp.Votes (unset : BitVec w) : AtomicOp w → Prop
  | .atomicCompareSwap if_equals then_set_to => if_equals = unset ∧ then_set_to ≠ unset
  | .atomicFetch | .fetch => True
  | _ => False

instance (unset : BitVec w) : (op : AtomicOp w) → Decidable (op.Votes unset)
  | .atomicCompareSwap _ _ => inferInstanceAs (Decidable (_ ∧ _))
  | .atomicFetch | .fetch => .isTrue trivial
  | .atomicSet _ | .atomicSwap _ | .atomicInc | .atomicFetchInc | .atomicAdd _ | .atomicFetchAdd _
  | .atomicAnd _ | .atomicFetchAnd _ | .atomicOr _ | .atomicFetchOr _ | .atomicXor _
  | .atomicFetchXor _ => .isFalse id

theorem AtomicOp.Votes.fetches {unset : BitVec w} {op : AtomicOp w} (votes : op.Votes unset) :
    op.fetches := by
  cases op <;> first | rfl | exact votes.elim

theorem AtomicOp.Votes.set {unset : BitVec w} {op : AtomicOp w} (votes : op.Votes unset)
    {v : BitVec w} (v_set : v ≠ unset) : op.update v = v := by
  cases op with
  | atomicCompareSwap if_equals then_set_to =>
    obtain ⟨rfl, _⟩ := votes
    exact if_neg v_set
  | atomicFetch | fetch => rfl
  | _ => exact votes.elim

theorem AtomicOp.Votes.unset {unset : BitVec w} {op : AtomicOp w} (votes : op.Votes unset) :
    op.update unset = op.proposes.getD unset := by
  cases op with
  | atomicCompareSwap if_equals then_set_to =>
    obtain ⟨rfl, _⟩ := votes
    exact if_pos rfl
  | atomicFetch | fetch => rfl
  | _ => exact votes.elim

theorem AtomicOp.Votes.proposal {unset : BitVec w} {op : AtomicOp w} (votes : op.Votes unset)
    {id : BitVec w} (own : op.proposes = some id) :
    op = .atomicCompareSwap unset id ∧ id ≠ unset := by
  cases op with
  | atomicCompareSwap if_equals then_set_to =>
    obtain rfl := Option.some.inj own
    obtain ⟨rfl, differs⟩ := votes
    exact ⟨rfl, differs⟩
  | atomicFetch | fetch => cases own
  | _ => exact votes.elim

/-- Nobody has proposed a value, or one proposal was taken, whoever comes later finds it, and
the word holds it. -/
inductive Words.Elects (unset : BitVec w) (s : Words P w) (q : Fin P) : Prop
  | nobody (none : ∀ op ∈ s.called q, op.proposes = none) (word : s.mem q = unset)
      (finds : ∀ x ∈ s.served q, x.2 = unset)
  | winner (id : BitVec w) (differs : id ≠ unset) (word : s.mem q = id)
      (once : (s.served q).filter (fun x => x.1.proposes.isSome && x.2 == unset) =
        [(.atomicCompareSwap unset id, unset)])
      (finds : ∀ x ∈ s.served q, x.2 = unset ∨ x.2 = id)

theorem compare_swap_elects (shbox : Nat) (unset : BitVec w) (initial : Fin P → BitVec w)
    (events : List (Words.Event w))
    (run : (Words.machine P w shbox).Admits (Words.start initial) events) (q : Fin P)
    (blank : initial q = unset)
    (votes : ∀ op ∈ ((Words.machine P w shbox).after (Words.start initial) events).called q,
      op.Votes unset) :
    Words.Elects unset ((Words.machine P w shbox).after (Words.start initial) events) q := by
  have sound := Words.Sound.run run
  have chain := sound.chain q
  have allServed := sound.served_perm fun op member => (votes op member).fetches
  generalize (Words.machine P w shbox).after (Words.start initial) events = s at *
  rw [blank] at chain
  have vote (x) (member : x ∈ s.served q) : x.1.Votes unset := votes x.1 (sound.served_called member)
  have leaves : ∀ x ∈ s.served q, ¬ x.1.proposes.isSome → ∀ v, ¬ v ≠ unset → ¬ x.1.update v ≠ unset := by
    intro x member looks v isUnset
    rw [not_not] at isUnset ⊢
    rw [isUnset, (vote x member).unset, Option.not_isSome_iff_eq_none.mp looks, Option.getD_none]
  by_cases somebody : ∃ x ∈ s.served q, x.1.proposes.isSome
  · have kept : ∀ x ∈ s.served q, ∀ v, v ≠ unset → x.1.update v ≠ unset := by
      intro x member v v_set
      rwa [(vote x member).set v_set]
    have makes : ∀ x ∈ s.served q, x.1.proposes.isSome → ∀ v, x.1.update v ≠ unset := by
      intro x member proposes v
      by_cases isUnset : v = unset
      · obtain ⟨id, own⟩ := Option.isSome_iff_exists.mp proposes
        rw [isUnset, (vote x member).unset, own, Option.getD_some]
        exact ((vote x member).proposal own).2
      · exact kept x member v isUnset
    obtain ⟨before, x, after, log, first⟩ := chain.first (· ≠ unset) (·.proposes.isSome)
      kept makes leaves (not_not.mpr rfl) somebody
    obtain ⟨id, own⟩ := Option.isSome_iff_exists.mp first.brings
    have x_member : x ∈ s.served q := by simp [log]
    obtain ⟨swaps, differs⟩ := (vote x x_member).proposal own
    have found : x.2 = unset := not_not.mp first.found
    have wins : x.1.update x.2 = id := by
      rw [found, (vote x x_member).unset, own, Option.getD_some]
    -- From the winner on the word does not change.
    have settled := first.later
    rw [wins] at settled
    have stays := settled.keeps (fun y member v v_id => by
      rw [(vote y (by simp [log, member])).set (v_id ▸ differs)]
      exact v_id) rfl
    refine .winner id differs stays.2.symm ?_ ?_
    · rw [log, first.filter (fun y => by simp)]
      exact congrArg (fun x => [x]) (Prod.ext swaps found)
    · intro y member
      rw [log] at member
      rcases List.mem_append.mp member with before | after
      · exact Or.inl (not_not.mp (first.earlier y before).2)
      rcases List.mem_cons.mp after with rfl | after
      · exact Or.inl found
      · exact Or.inr (stays.1 y after).symm
  · have never : ∀ x ∈ s.served q, ¬ x.1.proposes.isSome := by
      intro x member proposes
      exact somebody ⟨x, member, proposes⟩
    have undone := chain.undone (· ≠ unset) (·.proposes.isSome) leaves never (not_not.mpr rfl)
    refine .nobody ?_ (not_not.mp undone.2) fun x member => not_not.mp (undone.1 x member)
    intro op member
    obtain ⟨x, served, rfl⟩ := List.mem_map.mp (allServed.symm.subset member)
    exact Option.not_isSome_iff_eq_none.mp (never x served)

/-- Two PEs propose their numbers to PE 0. -/
theorem compare_swap_elects_two :
    Words.Elects 0 ((Words.machine 2 8 16).after (Words.start fun _ => 0)
      [.call (.atomicCompareSwap 0 2) ⟨0⟩, .call .atomicFetch ⟨0⟩,
        .call (.atomicCompareSwap 0 1) ⟨0⟩]) 0 :=
  compare_swap_elects 16 0 _ _ (by decide) 0 rfl (by decide)

/-! ### Exchanges -/

/-- What an operation puts into the word in exchange for what it finds. -/
def AtomicOp.exchanges : AtomicOp w → Option (BitVec w)
  | .atomicSwap new_value => some new_value
  | _ => none

theorem AtomicOp.update_exchanges {op : AtomicOp w} {v : BitVec w} (swaps : op.exchanges = some v)
    (old : BitVec w) : op.update old = v := by
  cases op with
  | atomicSwap new_value => exact Option.some.inj swaps
  | _ => cases swaps

theorem AtomicOp.fetches_exchanges {op : AtomicOp w} (swaps : op.exchanges.isSome) : op.fetches := by
  cases op with
  | atomicSwap new_value => rfl
  | _ => cases swaps

/-- Each exchange finds what the one before it has put in. -/
theorem exchanges_shift {s t : BitVec w} {log : List (AtomicOp w × BitVec w)}
    (chain : Chain AtomicOp.update s log t) (swaps : ∀ x ∈ log, x.1.exchanges.isSome) :
    log.map Prod.snd ++ [t] = s :: (log.map Prod.fst).filterMap AtomicOp.exchanges := by
  induction log generalizing s with
  | nil =>
    obtain rfl : s = t := chain
    rfl
  | cons x rest ih =>
    obtain ⟨found, later⟩ := chain
    obtain ⟨v, put⟩ := Option.isSome_iff_exists.mp (swaps x List.mem_cons_self)
    rw [AtomicOp.update_exchanges put] at later
    rw [List.map_cons, List.cons_append, ih later fun y member => swaps y (List.mem_cons_of_mem x member),
      List.map_cons, List.filterMap_cons_some put, found]

/-- No value which is exchanged through a word is lost, and none is given out twice. -/
theorem swap_conserves (shbox : Nat) (initial : Fin P → BitVec w) (events : List (Words.Event w))
    (run : (Words.machine P w shbox).Admits (Words.start initial) events) (q : Fin P)
    (swaps : ∀ op ∈ ((Words.machine P w shbox).after (Words.start initial) events).called q,
      op.exchanges.isSome) :
    ((((Words.machine P w shbox).after (Words.start initial) events).served q).map Prod.snd ++
        [((Words.machine P w shbox).after (Words.start initial) events).mem q]).Perm
      (initial q :: (((Words.machine P w shbox).after (Words.start initial) events).called q).filterMap
        AtomicOp.exchanges) := by
  have sound := Words.Sound.run run
  have allServed := sound.served_perm fun op member => AtomicOp.fetches_exchanges (swaps op member)
  rw [exchanges_shift (sound.chain q) fun x member => swaps x.1 (sound.served_called member)]
  exact (allServed.filterMap AtomicOp.exchanges).cons _

/-- PE 0 and PE 1 put 7 and 8 into the word of PE 1. -/
theorem swap_conserves_two :
    ((((Words.machine 2 8 16).after (Words.start fun _ => 5)
        [.call (.atomicSwap 8) ⟨1⟩, .call (.atomicSwap 7) ⟨1⟩]).served 1).map Prod.snd ++
        [((Words.machine 2 8 16).after (Words.start fun _ => 5)
          [.call (.atomicSwap 8) ⟨1⟩, .call (.atomicSwap 7) ⟨1⟩]).mem 1]).Perm
      (5 :: (((Words.machine 2 8 16).after (Words.start fun _ => 5)
        [.call (.atomicSwap 8) ⟨1⟩, .call (.atomicSwap 7) ⟨1⟩]).called 1).filterMap
          AtomicOp.exchanges) :=
  swap_conserves 16 (fun _ => 5) _ (by decide) 1 (by decide)

/-! ### Flags -/

/-- What an operation does to one bit. -/
inductive BitUse where
  | leaves
  | puts (b : Bool)
  | other
  deriving DecidableEq, Repr

def AtomicOp.onBit (i : Nat) : AtomicOp w → BitUse
  | .atomicFetch | .fetch => .leaves
  | .atomicSet new_value | .atomicSwap new_value => .puts (new_value.getLsbD i)
  | .atomicAnd mask | .atomicFetchAnd mask => if mask.getLsbD i then .leaves else .puts false
  | .atomicOr mask | .atomicFetchOr mask => if mask.getLsbD i then .puts true else .leaves
  | .atomicXor mask | .atomicFetchXor mask => if mask.getLsbD i then .other else .leaves
  | .atomicInc | .atomicFetchInc | .atomicAdd _ | .atomicFetchAdd _ | .atomicCompareSwap _ _ => .other

theorem AtomicOp.onBit_leaves {op : AtomicOp w} {i : Nat} (leaves : op.onBit i = .leaves)
    (v : BitVec w) : (op.update v).getLsbD i = v.getLsbD i := by
  cases op with
  | atomicFetch | fetch => rfl
  | atomicAnd mask | atomicFetchAnd mask =>
    have kept : mask.getLsbD i = true := by simpa [onBit] using leaves
    exact (BitVec.getLsbD_and ..).trans (by rw [kept, Bool.true_and])
  | atomicOr mask | atomicFetchOr mask | atomicXor mask | atomicFetchXor mask =>
    have clear : mask.getLsbD i = false := by simpa [onBit] using leaves
    first
    | exact (BitVec.getLsbD_or ..).trans (by rw [clear, Bool.false_or])
    | exact (BitVec.getLsbD_xor ..).trans (by rw [clear, Bool.false_xor])
  | _ => cases leaves

theorem AtomicOp.onBit_puts {op : AtomicOp w} {i : Nat} {b : Bool} (puts : op.onBit i = .puts b)
    (v : BitVec w) : (op.update v).getLsbD i = b := by
  cases op with
  | atomicSet new_value | atomicSwap new_value => exact BitUse.puts.inj puts
  | atomicAnd mask | atomicFetchAnd mask =>
    by_cases kept : mask.getLsbD i
    · simp [onBit, kept] at puts
    · rw [onBit, if_neg kept] at puts
      obtain rfl := BitUse.puts.inj puts
      exact (BitVec.getLsbD_and ..).trans (by rw [Bool.eq_false_iff.mpr kept, Bool.false_and])
  | atomicOr mask | atomicFetchOr mask =>
    by_cases raised : mask.getLsbD i
    · rw [onBit, if_pos raised] at puts
      obtain rfl := BitUse.puts.inj puts
      exact (BitVec.getLsbD_or ..).trans (by rw [raised, Bool.true_or])
    · simp [onBit, raised] at puts
  | atomicXor mask | atomicFetchXor mask =>
    by_cases flips : mask.getLsbD i <;> simp [onBit, flips] at puts
  | _ => cases puts

/-- The operations which put a bit to `b` and find that nobody has done so. -/
def Words.takers (i : Nat) (b : Bool) (s : Words P w) (q : Fin P) : List (AtomicOp w × BitVec w) :=
  (s.served q).filter fun x => x.1.onBit i == .puts b && x.2.getLsbD i != b

/-- Where all put a bit to the same value or leave it, one of them finds out that it was the
first, if the bit was not like that before. -/
theorem flag_taken_once (shbox : Nat) (initial : Fin P → BitVec w) (events : List (Words.Event w))
    (run : (Words.machine P w shbox).Admits (Words.start initial) events) (q : Fin P) (i : Nat)
    (b : Bool) (uses : ∀ op ∈ ((Words.machine P w shbox).after (Words.start initial) events).called q,
      op.onBit i = .leaves ∨ op.onBit i = .puts b) :
    (((Words.machine P w shbox).after (Words.start initial) events).takers i b q).length =
      if (initial q).getLsbD i ≠ b ∧
        ∃ x ∈ ((Words.machine P w shbox).after (Words.start initial) events).served q,
          x.1.onBit i = .puts b then 1 else 0 := by
  have sound := Words.Sound.run run
  have chain := sound.chain q
  generalize (Words.machine P w shbox).after (Words.start initial) events = s at *
  have makes : ∀ x ∈ s.served q, x.1.onBit i = .puts b → ∀ v, (x.1.update v).getLsbD i = b :=
    fun x _ puts => AtomicOp.onBit_puts puts
  have same : ∀ x ∈ s.served q, ¬ x.1.onBit i = .puts b →
      ∀ v, (x.1.update v).getLsbD i = v.getLsbD i := by
    intro x member other v
    rcases uses x.1 (sound.served_called member) with leaves | puts
    · exact AtomicOp.onBit_leaves leaves v
    · exact absurd puts other
  have leaves : ∀ x ∈ s.served q, ¬ x.1.onBit i = .puts b →
      ∀ v, ¬ v.getLsbD i = b → ¬ (x.1.update v).getLsbD i = b := by
    intro x member other v undone
    rwa [same x member other v]
  have kept : ∀ x ∈ s.served q, ∀ v, v.getLsbD i = b → (x.1.update v).getLsbD i = b := by
    intro x member v done
    by_cases puts : x.1.onBit i = .puts b
    · exact makes x member puts v
    · rwa [same x member puts v]
  by_cases undone : (initial q).getLsbD i = b
  · -- The bit is put from the start.
    rw [if_neg fun both => both.1 undone, List.length_eq_zero_iff, Words.takers, List.filter_eq_nil_iff]
    have found := (chain.keeps kept undone).1
    exact fun x member => by simp [found x member]
  by_cases somebody : ∃ x ∈ s.served q, x.1.onBit i = .puts b
  · obtain ⟨before, x, after, log, first⟩ := chain.first (·.getLsbD i = b) (·.onBit i = .puts b)
      kept makes leaves undone somebody
    rw [if_pos ⟨undone, somebody⟩, Words.takers, log, first.filter (fun y => by simp)]
    rfl
  · rw [if_neg fun both => somebody both.2, List.length_eq_zero_iff, Words.takers,
      List.filter_eq_nil_iff]
    exact fun x member => by
      have other : x.1.onBit i ≠ .puts b := fun puts => somebody ⟨x, member, puts⟩
      simp [other]

/-- Bit 0 of the word of PE 0 is raised twice, the second time in vain. -/
theorem flag_taken_once_two :
    (((Words.machine 2 8 16).after (Words.start fun _ => 6) [.call (.atomicOr 1) ⟨0⟩,
        .call (.atomicFetchOr 3) ⟨0⟩, .land 0]).takers 0 true 0).length =
      if (BitVec.getLsbD (6 : BitVec 8) 0) ≠ true ∧
        ∃ x ∈ ((Words.machine 2 8 16).after (Words.start fun _ => 6) [.call (.atomicOr 1) ⟨0⟩,
          .call (.atomicFetchOr 3) ⟨0⟩, .land 0]).served 0, x.1.onBit 0 = .puts true then 1 else 0 :=
  flag_taken_once 16 (fun _ => 6) _ (by decide) 0 0 true (by decide)

/-! ### Operations which commute -/

/-- The kinds of operations of which each can go before or after any other of its kind. -/
inductive Kind where
  | add
  | and
  | or
  | xor
  deriving DecidableEq, Repr

def Kind.combine : Kind → BitVec w → BitVec w → BitVec w
  | .add => (· + ·)
  | .and => (· &&& ·)
  | .or => (· ||| ·)
  | .xor => (· ^^^ ·)

theorem Kind.combine_assoc (kind : Kind) (a b c : BitVec w) :
    kind.combine (kind.combine a b) c = kind.combine a (kind.combine b c) := by
  cases kind with
  | add => exact BitVec.add_assoc a b c
  | and => exact BitVec.and_assoc a b c
  | or => exact BitVec.or_assoc a b c
  | xor => exact BitVec.xor_assoc a b c

theorem Kind.combine_comm (kind : Kind) (a b : BitVec w) : kind.combine a b = kind.combine b a := by
  cases kind with
  | add => exact BitVec.add_comm a b
  | and => exact BitVec.and_comm a b
  | or => exact BitVec.or_comm a b
  | xor => exact BitVec.xor_comm a b

/-- What an operation of a kind is given. One which only looks is of every kind. -/
def AtomicOp.operand : Kind → AtomicOp w → Option (BitVec w)
  | .add, op => op.plus
  | .and, .atomicAnd mask | .and, .atomicFetchAnd mask => some mask
  | .or, .atomicOr mask | .or, .atomicFetchOr mask => some mask
  | .xor, .atomicXor mask | .xor, .atomicFetchXor mask => some mask
  | .and, .atomicFetch | .and, .fetch => some (BitVec.allOnes w)
  | .or, .atomicFetch | .or, .fetch | .xor, .atomicFetch | .xor, .fetch => some 0
  | _, _ => none

theorem AtomicOp.update_operand {kind : Kind} {op : AtomicOp w} {m : BitVec w}
    (own : op.operand kind = some m) (v : BitVec w) : op.update v = kind.combine v m := by
  cases kind with
  | add => exact AtomicOp.update_plus own v
  | and =>
    cases op with
    | atomicFetch | fetch =>
      obtain rfl := Option.some.inj own
      exact (BitVec.and_allOnes).symm
    | atomicAnd mask | atomicFetchAnd mask =>
      obtain rfl := Option.some.inj own
      exact BitVec.and_comm _ _
    | _ => cases own
  | or =>
    cases op with
    | atomicFetch | fetch =>
      obtain rfl := Option.some.inj own
      exact (BitVec.or_zero).symm
    | atomicOr mask | atomicFetchOr mask =>
      obtain rfl := Option.some.inj own
      exact BitVec.or_comm _ _
    | _ => cases own
  | xor =>
    cases op with
    | atomicFetch | fetch =>
      obtain rfl := Option.some.inj own
      exact (BitVec.xor_zero).symm
    | atomicXor mask | atomicFetchXor mask =>
      obtain rfl := Option.some.inj own
      exact BitVec.xor_comm _ _
    | _ => cases own

theorem foldl_operands {kind : Kind} {calls : List (AtomicOp w)}
    (kinds : ∀ op ∈ calls, (op.operand kind).isSome) (v : BitVec w) :
    calls.foldl (fun v op => op.update v) v =
      (calls.filterMap (·.operand kind)).foldl kind.combine v := by
  induction calls generalizing v with
  | nil => rfl
  | cons op rest ih =>
    obtain ⟨m, own⟩ := Option.isSome_iff_exists.mp (kinds op List.mem_cons_self)
    rw [List.foldl_cons, AtomicOp.update_operand own, List.filterMap_cons_some own, List.foldl_cons]
    exact ih (fun op member => kinds op (List.mem_cons_of_mem _ member)) _

/-- Operations of one kind which have all arrived leave the same in whatever order they did. -/
theorem atomics_converge (shbox : Nat) (initial : Fin P → BitVec w) (events : List (Words.Event w))
    (run : (Words.machine P w shbox).Admits (Words.start initial) events) (q : Fin P) (kind : Kind)
    (kinds : ∀ op ∈ ((Words.machine P w shbox).after (Words.start initial) events).called q,
      (op.operand kind).isSome)
    (landed : ((Words.machine P w shbox).after (Words.start initial) events).onWay q = []) :
    ((Words.machine P w shbox).after (Words.start initial) events).mem q =
      ((((Words.machine P w shbox).after (Words.start initial) events).called q).filterMap
        (·.operand kind)).foldl kind.combine (initial q) := by
  have sound := Words.Sound.run run
  have same := sound.called q
  rw [landed, List.append_nil] at same
  rw [← foldl_operands kinds]
  refine (sound.chain q).foldl_perm same ?_
  intro a first b second v
  obtain ⟨m, own⟩ := Option.isSome_iff_exists.mp (kinds a first)
  obtain ⟨n, other⟩ := Option.isSome_iff_exists.mp (kinds b second)
  simp only [AtomicOp.update_operand own, AtomicOp.update_operand other]
  rw [kind.combine_assoc, kind.combine_comm n m, ← kind.combine_assoc]

/-- The first of two masks arrives last. -/
theorem atomics_converge_two :
    ((Words.machine 2 8 16).after (Words.start fun _ => 9) [.call (.atomicXor 3) ⟨1⟩,
        .call (.atomicXor 5) ⟨1⟩, .land 1, .call (.atomicFetchXor 6) ⟨1⟩, .land 0]).mem 1 =
      ((((Words.machine 2 8 16).after (Words.start fun _ => 9) [.call (.atomicXor 3) ⟨1⟩,
        .call (.atomicXor 5) ⟨1⟩, .land 1, .call (.atomicFetchXor 6) ⟨1⟩, .land 0]).called 1).filterMap
          (·.operand .xor)).foldl Kind.xor.combine 9 :=
  atomics_converge 16 (fun _ => 9) _ (by decide) 1 .xor (by decide) (by decide)

end OpenShmem
