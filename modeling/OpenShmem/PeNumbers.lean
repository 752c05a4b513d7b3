import OpenShmem.TransferBounds

/-! The number of a PE on its way from the index given to `ctx.pe` to the routines:
`usize` to `u32` before the check, and `u32` to a C int in the check and in every use. -/
namespace OpenShmem

variable {P : Nat} {T : Type} [Pod T]

def cIntMax : Nat := 2^31 - 1

/-- The methods of `PEReference` which call a routine, with their arguments. -/
inductive PeMethod (T : Type) [Pod T] where
  | ranged (range : RangeBounds) (op : RangeOp T)
  | writeFrom (data : Slice T)
  | getSingleNbi (idx : Usize)

def PeMethod.run (build : Build) (self : PEReference P) (shbox : Shbox T) :
    PeMethod T → Shmem P Unit
  | .ranged range op => op.run build self shbox range
  | .writeFrom data => self.writeFrom build shbox data
  | .getSingleNbi idx => do let _ : PendingNbiOp T ← self.getSingleNbi shbox idx

/-- `ctx.pe(i)` refers to PE `i`, and every operation passes that number, if there is
such a PE; the call panics if there is none. -/
structure Designates (P : Nat) (i : Usize) : Prop where
  returns : (∃ self, ctxPe P i = .ok self) ↔ i.toNat < P
  panics : P ≤ i.toNat → ctxPe P i = .error (.invalidPe i.toNat)
  number : ∀ self, ctxPe P i = .ok self → self.pe.cInt = i.toNat
  passes : ∀ self, ctxPe P i = .ok self → ∀ (T : Type) [Pod T] (build : Build) (shbox : Shbox T)
    (method : PeMethod T) (w : World P), ∀ c ∈ issued (method.run build self shbox) w,
      (c.pe : Int) = i.toNat

/-- The cast to `u32` does not turn an index of no PE into that of one. -/
def KeepsIndex (P : Nat) (i : Usize) : Prop := i.toNat < 2^32 ∨ P ≤ i.toNat % 2^32

/-- The routine gets the C int of the PE the reference was made for. -/
theorem PEReference.target_cInt (self : PEReference P) : (self.target : Int) = self.pe.cInt := by
  have accessible := self.accessible
  simp only [peAccessible, Bool.and_eq_true, decide_eq_true_eq] at accessible
  exact Int.toNat_of_nonneg accessible.1

/-- Whatever a method issues goes to the PE of the reference. -/
theorem PeMethod.issued_target {build : Build} {self : PEReference P} {shbox : Shbox T}
    {method : PeMethod T} {w : World P} {c : Call P}
    (member : c ∈ issued (method.run build self shbox) w) : c.pe = self.target := by
  cases method with
  | ranged range op =>
    obtain ⟨start, count, buffer, _, routine, dest, rfl⟩ := moves_of_issued member
    rfl
  | writeFrom data =>
    by_cases room : data.elems.length ≤ shbox.len.toNat
    · rw [PeMethod.run, issued_ok (PEReference.writeFrom_resolved self room) rfl] at member
      obtain rfl := List.mem_singleton.mp member
      rfl
    · rw [PeMethod.run, issued_panic
        (PEReference.writeFrom_rejected self (Nat.lt_of_not_le room))] at member
      cases member
  | getSingleNbi idx =>
    rw [PeMethod.run, issued_discard] at member
    by_cases inside : idx.toNat < shbox.len.toNat
    · rw [issued_ok (PEReference.getSingleNbi_resolved self inside) rfl] at member
      obtain rfl := List.mem_singleton.mp member
      rfl
    · rw [issued_panic (PEReference.getSingleNbi_rejected self inside)] at member
      cases member

/-- The C int of a PE of this world is the `u32` itself. -/
theorem PE.cInt_lt (pe : PE) (small : P ≤ cIntMax) :
    (0 ≤ pe.cInt ∧ pe.cInt < P) ↔ pe.id.toNat < P := by
  have bound := pe.id.isLt
  simp only [PE.cInt, BitVec.toInt_eq_toNat_cond, cIntMax] at *
  split <;> omega

theorem PE.cInt_eq (pe : PE) (small : P ≤ cIntMax) (inside : pe.id.toNat < P) :
    pe.cInt = pe.id.toNat := by
  simp only [PE.cInt, BitVec.toInt_eq_toNat_cond, cIntMax] at *
  rw [if_pos (by omega)]

theorem peAccessible_iff (pe : PE) (small : P ≤ cIntMax) :
    peAccessible P pe = true ↔ pe.id.toNat < P := by
  rw [← PE.cInt_lt pe small, peAccessible, Bool.and_eq_true, decide_eq_true_eq, decide_eq_true_eq]

section

variable {i j : Usize} {self other : PEReference P}

theorem ctxPe_ok (small : P ≤ cIntMax) : (∃ self, ctxPe P i = .ok self) ↔ i.toNat % 2^32 < P := by
  have id : ((⟨i.setWidth 32⟩ : PE).id).toNat = i.toNat % 2^32 := BitVec.toNat_setWidth 32 i
  rw [← id, ← peAccessible_iff _ small, ctxPe]
  by_cases accessible : peAccessible P ⟨i.setWidth 32⟩ = true
  · simp [accessible]
  · simp [accessible]

theorem ctxPe_error (small : P ≤ cIntMax) (outside : P ≤ i.toNat % 2^32) :
    ctxPe P i = .error (.invalidPe i.toNat) := by
  have id : ((⟨i.setWidth 32⟩ : PE).id).toNat = i.toNat % 2^32 := BitVec.toNat_setWidth 32 i
  have inaccessible : ¬ peAccessible P ⟨i.setWidth 32⟩ = true := by
    rw [peAccessible_iff _ small, id]
    exact Nat.not_lt.mpr outside
  exact dif_neg inaccessible

/-- A reference is to the PE of the index modulo `2^32`. -/
theorem ctxPe_cInt (small : P ≤ cIntMax) (made : ctxPe P i = .ok self) :
    self.pe.cInt = (i.toNat % 2^32 : Nat) := by
  have inside : i.toNat % 2^32 < P := (ctxPe_ok small).mp ⟨self, made⟩
  have id : self.pe.id.toNat = i.toNat % 2^32 := by
    rw [ctxPe] at made
    split at made
    · cases made
      exact BitVec.toNat_setWidth 32 i
    · cases made
  rw [PE.cInt_eq self.pe small (by rw [id]; exact inside), id]

theorem Designates.of_keepsIndex (small : P ≤ cIntMax) (keeps : KeepsIndex P i) :
    Designates P i := by
  have exact_ (inside : i.toNat % 2^32 < P) : i.toNat % 2^32 = i.toNat := by
    rcases keeps with low | outside
    · exact Nat.mod_eq_of_lt low
    · omega
  have number (self : PEReference P) (made : ctxPe P i = .ok self) : self.pe.cInt = i.toNat := by
    rw [ctxPe_cInt small made, exact_ ((ctxPe_ok small).mp ⟨self, made⟩)]
  constructor
  · rw [ctxPe_ok small]
    constructor
    · intro inside
      rwa [exact_ inside] at inside
    · exact Nat.lt_of_le_of_lt (Nat.mod_le _ _)
  · intro outside
    apply ctxPe_error small
    by_contra inside
    have := exact_ (Nat.lt_of_not_le inside)
    omega
  · exact number
  · intro self made T _ build shbox method w c member
    rw [PeMethod.issued_target member, PEReference.target_cInt, number self made]

end

/-- `ctx.pe` does what its index says unless the cast to `u32` makes it that of
another PE, and two indices which are kept lead to different PEs. -/
theorem ctxPe_designates_iff (P : Nat) (small : P ≤ cIntMax) :
    (∀ i, Designates P i ↔ KeepsIndex P i) ∧
    ∀ i j, KeepsIndex P i → KeepsIndex P j → i ≠ j →
      ∀ self other, ctxPe P i = .ok self → ctxPe P j = .ok other → self.target ≠ other.target := by
  constructor
  · intro i
    constructor
    · intro designates
      by_contra truncated
      obtain ⟨high, inside⟩ := not_or.mp truncated
      have returns := designates.returns.mp ((ctxPe_ok small).mpr (Nat.lt_of_not_le inside))
      simp only [cIntMax] at small
      omega
    · exact Designates.of_keepsIndex small
  · intro i j first second different self other made made' same
    apply different
    have number := (Designates.of_keepsIndex small first).number self made
    have number' := (Designates.of_keepsIndex small second).number other made'
    rw [← PEReference.target_cInt] at number number'
    rw [same, number'] at number
    exact BitVec.eq_of_toNat_eq (by omega)

theorem ctxPe_designates_two :
    (2 : Nat) ≤ cIntMax ∧ (∀ i, Designates 2 i ↔ KeepsIndex 2 i) ∧
    ∀ i j, KeepsIndex 2 i → KeepsIndex 2 j → i ≠ j →
      ∀ self other, ctxPe 2 i = .ok self → ctxPe 2 j = .ok other → self.target ≠ other.target :=
  ⟨by decide, ctxPe_designates_iff 2 (by decide)⟩

/-- Index `2^32` is taken for PE 0 of a world which has no other. -/
theorem ctxPe_truncates :
    ¬ ∀ P, 1 ≤ P → P ≤ cIntMax → ∀ i, Designates P i := by
  intro designates
  have returns := (designates 1 (Nat.le_refl 1) (by decide) (2^32)).returns.mp
    ((ctxPe_ok (by decide)).mpr (by decide))
  exact absurd returns (by decide)

end OpenShmem
