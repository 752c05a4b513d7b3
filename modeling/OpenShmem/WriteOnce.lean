import Mathlib.Data.List.Nodup
import Mathlib.Logic.Function.Basic

/-! Cells of which each is written at most once, by pieces which travel to them and arrive
in any order. -/

universe u v

namespace WriteOnce

/-- A value on its way to a cell. -/
structure Piece (κ : Type u) (V : Type v) where
  cell : κ
  value : V
  deriving DecidableEq, Repr

variable {κ : Type u} {V : Type v}

/-- No two pieces go to the same cell. -/
def Once (pieces : List (Piece κ V)) : Prop := (pieces.map Piece.cell).Nodup

instance [DecidableEq κ] (pieces : List (Piece κ V)) : Decidable (Once pieces) :=
  inferInstanceAs (Decidable (List.Nodup _))

theorem Once.eq {pieces : List (Piece κ V)} (once : Once pieces) {piece other : Piece κ V}
    (first : piece ∈ pieces) (second : other ∈ pieces) (same : piece.cell = other.cell) :
    piece = other :=
  List.inj_on_of_nodup_map once first second same

theorem Once.earlier {pieces more : List (Piece κ V)} (once : Once (pieces ++ more)) : Once pieces :=
  once.sublist ((List.sublist_append_left pieces more).map Piece.cell)

/-- The pieces which come later go to other cells. -/
theorem Once.later {pieces more : List (Piece κ V)} (once : Once (pieces ++ more))
    {piece other : Piece κ V} (first : piece ∈ pieces) (second : other ∈ more) :
    other.cell ≠ piece.cell := by
  rw [Once, List.map_append] at once
  have apart := (List.nodup_append.mp once).2.2
  exact (apart _ (List.mem_map_of_mem first) _ (List.mem_map_of_mem second)).symm

/-- Nothing travels which was not issued, a cell is as it was until its piece arrives, and
then it holds what the piece brought. -/
structure Accounted (initial mem : κ → V) (issued flight : List (Piece κ V)) : Prop where
  travelling : flight.Sublist issued
  before : ∀ piece ∈ flight, mem piece.cell = initial piece.cell
  landed : ∀ piece ∈ issued, piece ∈ flight ∨ mem piece.cell = piece.value
  untouched : ∀ cell, (∀ piece ∈ issued, piece.cell ≠ cell) → mem cell = initial cell

/-- A cell holds what was sent to it, and nothing is on its way there. -/
structure Arrived (mem : κ → V) (issued flight : List (Piece κ V)) (cell : κ) : Prop where
  value : ∃ piece ∈ issued, piece.cell = cell ∧ mem cell = piece.value
  last : ∀ piece ∈ flight, piece.cell ≠ cell

variable {initial mem : κ → V} {issued flight pieces : List (Piece κ V)} {piece : Piece κ V} {j : Nat}
  {cell : κ}

/-- The other pieces travel on. -/
theorem mem_eraseIdx {other : Piece κ V} (chosen : flight[j]? = some piece) (member : other ∈ flight)
    (differs : other ≠ piece) : other ∈ flight.eraseIdx j := by
  obtain ⟨i, at_⟩ := List.mem_iff_getElem?.mp member
  refine List.mem_eraseIdx_iff_getElem?.mpr ⟨i, ?_, at_⟩
  rintro rfl
  exact differs (Option.some.inj (at_.symm.trans chosen))

/-- None of them goes where the one which arrives does. -/
theorem cell_eraseIdx {other : Piece κ V} (once : Once flight) (chosen : flight[j]? = some piece)
    (member : other ∈ flight.eraseIdx j) : other.cell ≠ piece.cell := by
  obtain ⟨i, different, at_⟩ := List.mem_eraseIdx_iff_getElem?.mp member
  intro same
  have inside := (List.getElem?_eq_some_iff.mp at_).1
  refine different ((List.getElem?_inj (by simpa using inside) once).mp ?_)
  rw [List.getElem?_map, List.getElem?_map, at_, chosen]
  exact congrArg some same

namespace Accounted

theorem start (mem : κ → V) : Accounted mem mem [] [] :=
  ⟨List.Sublist.refl _, fun _ member => absurd member List.not_mem_nil,
    fun _ member => absurd member List.not_mem_nil, fun _ _ => rfl⟩

theorem issue (accounted : Accounted initial mem issued flight) (once : Once (issued ++ pieces)) :
    Accounted initial mem (issued ++ pieces) (flight ++ pieces) := by
  refine ⟨accounted.travelling.append_right pieces, ?_, ?_, ?_⟩
  · intro piece member
    rcases List.mem_append.mp member with older | newer
    · exact accounted.before piece older
    · exact accounted.untouched _ fun other earlier => (once.later earlier newer).symm
  · intro piece member
    rcases List.mem_append.mp member with older | newer
    · exact (accounted.landed piece older).imp_left (List.mem_append_left pieces)
    · exact Or.inl (List.mem_append_right flight newer)
  · intro cell free
    exact accounted.untouched cell fun piece older => free piece (List.mem_append_left pieces older)

/-- Only the arrival of its piece changes a cell. -/
theorem arrived (accounted : Accounted initial mem issued flight) (changed : mem cell ≠ initial cell) :
    Arrived mem issued flight cell := by
  have free : ∀ piece ∈ flight, piece.cell ≠ cell := by
    rintro piece member rfl
    exact changed (accounted.before piece member)
  refine ⟨?_, free⟩
  by_contra none
  refine changed (accounted.untouched cell fun piece member same => none ⟨piece, member, same, ?_⟩)
  rcases accounted.landed piece member with travels | landed
  · exact absurd same (free piece travels)
  · rw [← same, landed]

end Accounted

/-- What has arrived stays. -/
theorem Arrived.issue (arrived : Arrived mem issued flight cell) (once : Once (issued ++ pieces)) :
    Arrived mem (issued ++ pieces) (flight ++ pieces) cell := by
  obtain ⟨piece, member, rfl, holds⟩ := arrived.value
  refine ⟨⟨piece, List.mem_append_left pieces member, rfl, holds⟩, ?_⟩
  intro other travels
  rcases List.mem_append.mp travels with older | newer
  · exact arrived.last other older
  · exact once.later member newer

/-! ### Arrivals -/
section

variable [DecidableEq κ]

/-- A piece arrives. -/
def land (mem : κ → V) (piece : Piece κ V) : κ → V := Function.update mem piece.cell piece.value

theorem foldl_land_other {pieces : List (Piece κ V)} {cell : κ}
    (free : ∀ piece ∈ pieces, piece.cell ≠ cell) (mem : κ → V) :
    pieces.foldl land mem cell = mem cell := by
  induction pieces generalizing mem with
  | nil => rfl
  | cons piece rest ih =>
    rw [List.foldl_cons, ih fun other member => free other (List.mem_cons_of_mem piece member)]
    exact Function.update_of_ne (free piece List.mem_cons_self).symm _ _

/-- Whatever the order, each piece is found where it went. -/
theorem foldl_land {pieces : List (Piece κ V)} (once : Once pieces) {piece : Piece κ V}
    (member : piece ∈ pieces) (mem : κ → V) : pieces.foldl land mem piece.cell = piece.value := by
  induction pieces generalizing mem with
  | nil => exact absurd member List.not_mem_nil
  | cons first rest ih =>
    obtain ⟨fresh, later⟩ := List.nodup_cons.mp once
    rw [List.foldl_cons]
    rcases List.mem_cons.mp member with rfl | member
    · rw [foldl_land_other fun other member same =>
        fresh (List.mem_map.mpr ⟨other, member, same⟩)]
      exact Function.update_self ..
    · exact ih later member _

theorem Accounted.land (accounted : Accounted initial mem issued flight) (once : Once issued)
    (chosen : flight[j]? = some piece) :
    Accounted initial (WriteOnce.land mem piece) issued (flight.eraseIdx j) := by
  have travels : piece ∈ flight := List.mem_of_getElem? chosen
  have onceFlight : Once flight := once.sublist (accounted.travelling.map Piece.cell)
  refine ⟨(List.eraseIdx_sublist flight j).trans accounted.travelling, ?_, ?_, ?_⟩
  · intro other member
    rw [WriteOnce.land, Function.update_of_ne (cell_eraseIdx onceFlight chosen member)]
    exact accounted.before other (List.mem_of_mem_eraseIdx member)
  · intro other member
    by_cases same : other.cell = piece.cell
    · obtain rfl := once.eq member (accounted.travelling.subset travels) same
      exact Or.inr (Function.update_self ..)
    · rw [WriteOnce.land, Function.update_of_ne same]
      refine (accounted.landed other member).imp_left fun travels => ?_
      exact mem_eraseIdx chosen travels (ne_of_apply_ne Piece.cell same)
  · intro cell free
    rw [WriteOnce.land, Function.update_of_ne (free piece (accounted.travelling.subset travels)).symm]
    exact accounted.untouched cell free

theorem Arrived.land (arrived : Arrived mem issued flight cell) (chosen : flight[j]? = some piece) :
    Arrived (WriteOnce.land mem piece) issued (flight.eraseIdx j) cell := by
  have other : cell ≠ piece.cell := (arrived.last piece (List.mem_of_getElem? chosen)).symm
  refine ⟨?_, fun piece member => arrived.last piece (List.mem_of_mem_eraseIdx member)⟩
  rw [WriteOnce.land, Function.update_of_ne other]
  exact arrived.value

end

end WriteOnce
