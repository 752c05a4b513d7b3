import Mathlib.Data.Fin.Basic
import Mathlib.Data.List.Basic

/-! Arrays which are stored row by row. Entry `(i, j)` of `c` columns has the flat index
`i * c + j`; loops over rows and columns are loops over flat indices; and a loop which
fills an array in this order computes the list of what it stores. -/

universe u v w

namespace RowMajor

/-! ### Flat indices -/
section

variable {r c i j : Nat}

theorem index_lt (row : i < r) (col : j < c) : i * c + j < r * c := by
  calc i * c + j < (i + 1) * c := by rw [Nat.add_mul]; omega
    _ ≤ r * c := Nat.mul_le_mul_right c row

theorem index_div (col : j < c) : (i * c + j) / c = i := by
  rw [Nat.mul_comm, Nat.mul_add_div (Nat.zero_lt_of_lt col), Nat.div_eq_of_lt col, Nat.add_zero]

theorem index_mod (col : j < c) : (i * c + j) % c = j := by
  rw [Nat.mul_comm, Nat.mul_add_mod, Nat.mod_eq_of_lt col]

theorem exists_index {k : Nat} (inside : k < r * c) : ∃ i < r, ∃ j < c, k = i * c + j := by
  have positive : 0 < c := Nat.pos_of_lt_mul_left inside
  refine ⟨k / c, ?_, k % c, Nat.mod_lt k positive, (Nat.div_add_mod' k c).symm⟩
  exact Nat.div_lt_of_lt_mul (by rwa [Nat.mul_comm])

end

/-! ### Loops -/
section

variable {m : Type u → Type v} [Monad m] {σ : Type u} {α : Type w}

theorem foldlM_congr {f g : σ → α → m σ} {l : List α} (same : ∀ x ∈ l, ∀ s, f s x = g s x) (s : σ) :
    l.foldlM f s = l.foldlM g s := by
  induction l generalizing s with
  | nil => rfl
  | cons x rest ih =>
    rw [List.foldlM_cons, List.foldlM_cons, same x List.mem_cons_self]
    have later : ∀ s, rest.foldlM f s = rest.foldlM g s :=
      ih fun y member => same y (List.mem_cons_of_mem x member)
    simp only [later]

/-- A loop which never breaks is a fold. -/
theorem forIn_yield [LawfulMonad m] (body : σ → α → m σ) (l : List α) (s : σ) :
    (forIn l s fun x s => do
      let s ← body s x
      pure (ForInStep.yield s)) = l.foldlM body s := by
  simp

/-- The rows one after the other, and each from its first column on. -/
theorem foldlM_nested [LawfulMonad m] (body : σ → Nat → Nat → m σ) (r c : Nat) (s : σ) :
    (List.range r).foldlM (fun s i => (List.range c).foldlM (fun s j => body s i j) s) s =
      (List.range (r * c)).foldlM (fun s k => body s (k / c) (k % c)) s := by
  induction r with
  | zero => simp
  | succ r ih =>
    have last (s : σ) : (List.range c).foldlM (fun s j => body s r j) s =
        ((List.range c).map (r * c + ·)).foldlM (fun s k => body s (k / c) (k % c)) s := by
      rw [List.foldlM_map]
      refine foldlM_congr ?_ s
      intro j member s
      have col := List.mem_range.mp member
      rw [index_div col, index_mod col]
    rw [List.range_succ, List.foldlM_append, ih, Nat.succ_mul, List.range_add, List.foldlM_append]
    simp only [List.foldlM_cons, List.foldlM_nil, bind_pure, last]

end

/-! ### Values which may fail to come -/
section

variable {α : Type w} {β : Type u} {ε : Type v} {f : α → Except ε β} {l : List α}

theorem mapM_ok_iff {values : List β} : l.mapM f = .ok values ↔ l.map f = values.map .ok := by
  induction l generalizing values with
  | nil => simp [pure, Except.pure, eq_comm]
  | cons x rest ih =>
    rw [List.mapM_cons, List.map_cons]
    cases first : f x with
    | error e => cases values <;> simp [bind, Except.bind]
    | ok y =>
      cases later : rest.mapM f with
      | error e =>
        have none : ∀ values : List β, rest.map f ≠ values.map .ok := by
          intro values same
          rw [ih.mpr same] at later
          cases later
        cases values <;> simp [bind, Except.bind, none]
      | ok ys =>
        rw [ih.mp later]
        cases values with
        | nil => simp [bind, Except.bind, pure, Except.pure]
        | cons z zs =>
          have injective : Function.Injective (Except.ok : β → Except ε β) := fun _ _ => Except.ok.inj
          simp [bind, Except.bind, pure, Except.pure, injective.list_map.eq_iff]

theorem mapM_of_ok {g : α → β} (values : ∀ x ∈ l, f x = .ok (g x)) : l.mapM f = .ok (l.map g) := by
  rw [mapM_ok_iff, List.map_map]
  exact List.map_congr_left values

theorem mapM_error {e : ε} (failed : l.mapM f = .error e) : ∃ x ∈ l, f x = .error e := by
  induction l with
  | nil => cases failed
  | cons x rest ih =>
    rw [List.mapM_cons] at failed
    cases first : f x with
    | error e' =>
      rw [first] at failed
      cases failed
      exact ⟨x, List.mem_cons_self, first⟩
    | ok y =>
      cases later : rest.mapM f with
      | error e' =>
        rw [first, later] at failed
        cases failed
        obtain ⟨z, member, at_⟩ := ih later
        exact ⟨z, List.mem_cons_of_mem x member, at_⟩
      | ok ys =>
        rw [first, later] at failed
        cases failed

theorem mapM_length {values : List β} (returned : l.mapM f = .ok values) :
    values.length = l.length := by
  have same := congrArg List.length (mapM_ok_iff.mp returned)
  rwa [List.length_map, List.length_map, eq_comm] at same

end

/-! ### All entries -/
section

variable {α : Type u} {r c : Nat} (entry : Fin r → Fin c → α)

/-- The entries row by row. -/
def flatten : List α := List.ofFn fun k : Fin (r * c) => entry k.divNat k.modNat

@[simp] theorem flatten_length : (flatten entry).length = r * c := List.length_ofFn

theorem flatten_index (i : Fin r) (j : Fin c) :
    (flatten entry)[i.val * c + j.val]? = some (entry i j) := by
  have within := index_lt i.isLt j.isLt
  have row : Fin.divNat ⟨i.val * c + j.val, within⟩ = i := Fin.ext (index_div j.isLt)
  have col : Fin.modNat ⟨i.val * c + j.val, within⟩ = j := Fin.ext (index_mod j.isLt)
  rw [flatten, List.getElem?_ofFn, dif_pos within, row, col]

/-- Values which come at every row and column come in the order of flat indices. -/
theorem mapM_flatten {ε : Type v} {f : Nat → Except ε α}
    (values : ∀ i j, f (i.val * c + j.val) = .ok (entry i j)) :
    (List.range (r * c)).mapM f = .ok (flatten entry) := by
  apply mapM_ok_iff.mpr
  apply List.ext_getElem (by simp)
  intro k _ _
  simp only [flatten, List.getElem_map, List.getElem_range, List.getElem_ofFn]
  rw [← values]
  exact congrArg f (Nat.div_add_mod' k c).symm

end

/-! ### Pieces -/

/-- Pieces which begin where those before them end make up the whole. -/
theorem flatMap_pieces {cut : Nat → Nat} (first : cut 0 = 0) {n : Nat}
    (ascending : ∀ p < n, cut p ≤ cut (p + 1)) :
    (List.range n).flatMap (fun p => List.range' (cut p) (cut (p + 1) - cut p)) =
      List.range (cut n) := by
  induction n with
  | zero => simp [first]
  | succ n ih =>
    have above := ascending n (Nat.lt_succ_self n)
    rw [List.range_succ, List.flatMap_append, ih fun p before => ascending p (Nat.lt_succ_of_lt before),
      List.flatMap_singleton, List.range_eq_range', List.range_eq_range']
    have joined : List.range' 0 (cut n) ++ List.range' (0 + cut n) (cut (n + 1) - cut n) =
        List.range' 0 (cut n + (cut (n + 1) - cut n)) := List.range'_append_1
    rwa [Nat.zero_add, Nat.add_sub_cancel' above] at joined

/-! ### Filling an array -/
section

variable {σ α : Type u} {ρ : Type w} {ε : Type v} {cells : σ → List α} {rest : σ → ρ}
  {store : σ → Nat → α → Except ε σ} {n : Nat}

/-- In a container of `n` cells, `store s k x` puts `x` into cell `k`; the other cells and
the rest of the container stay as they are. -/
def Stores (cells : σ → List α) (rest : σ → ρ) (store : σ → Nat → α → Except ε σ) (n : Nat) : Prop :=
  ∀ s k x, (cells s).length = n → k < n →
    ∃ s', store s k x = .ok s' ∧ cells s' = (cells s).set k x ∧ rest s' = rest s

/-- Cells `0, ..., k-1` are filled in turn. -/
def fill (store : σ → Nat → α → Except ε σ) (f : Nat → Except ε α) (k : Nat) (s : σ) : Except ε σ :=
  (List.range k).foldlM (fun s i => do
    let x ← f i
    store s i x) s

theorem fill_succ (store : σ → Nat → α → Except ε σ) (f : Nat → Except ε α) (k : Nat) (s : σ) :
    fill store f (k + 1) s = (do
      let s ← fill store f k s
      let x ← f k
      store s k x) := by
  simp [fill, List.range_succ]

theorem mapM_range_succ (f : Nat → Except ε α) (k : Nat) :
    (List.range (k + 1)).mapM f = (do
      let values ← (List.range k).mapM f
      let x ← f k
      return values ++ [x]) := by
  simp [List.range_succ]

/-- The cells up to `k` hold what the values come to, in order, and the others what they
held before; the first failure ends the loop. -/
theorem fill_upto (stores : Stores cells rest store n) (f : Nat → Except ε α) {s : σ}
    (room : (cells s).length = n) {k : Nat} (within : k ≤ n) :
    (∃ e, (List.range k).mapM f = .error e ∧ fill store f k s = .error e) ∨
    ∃ values s', (List.range k).mapM f = .ok values ∧ fill store f k s = .ok s' ∧
      cells s' = values ++ (cells s).drop k ∧ rest s' = rest s := by
  induction k with
  | zero => exact .inr ⟨[], s, rfl, rfl, rfl, rfl⟩
  | succ k ih =>
    rw [mapM_range_succ, fill_succ]
    rcases ih (Nat.le_of_succ_le within) with
      ⟨e, failed, stopped⟩ | ⟨values, s', early, ran, filled, kept⟩
    · rw [failed, stopped]
      exact .inl ⟨e, rfl, rfl⟩
    · rw [early, ran]
      cases f k with
      | error e => exact .inl ⟨e, rfl, rfl⟩
      | ok x =>
        have length : values.length = k := (mapM_length early).trans List.length_range
        have room' : (cells s').length = n := by
          rw [filled, List.length_append, List.length_drop]
          omega
        obtain ⟨s'', stored, cells_eq, kept'⟩ := stores s' k x room' within
        refine .inr ⟨values ++ [x], s'', rfl, stored, ?_, kept'.trans kept⟩
        rw [cells_eq, filled, List.set_append_right _ _ (Nat.le_of_eq length), length,
          Nat.sub_self, List.drop_eq_getElem_cons (by omega), List.set_cons_zero,
          List.append_assoc, List.singleton_append]

/-- A loop over all cells which returns has all values in its cells. -/
theorem fill_returned (stores : Stores cells rest store n) {f : Nat → Except ε α} {s s' : σ}
    (room : (cells s).length = n) (returned : fill store f n s = .ok s') :
    (List.range n).mapM f = .ok (cells s') ∧ rest s' = rest s := by
  rcases fill_upto stores f room (Nat.le_refl n) with
    ⟨e, _, stopped⟩ | ⟨values, t, early, ran, filled, kept⟩
  · rw [stopped] at returned
    cases returned
  · rw [ran] at returned
    cases returned
    rw [List.drop_of_length_le (Nat.le_of_eq room), List.append_nil] at filled
    rw [filled]
    exact ⟨early, kept⟩

/-- It returns where all values come. -/
theorem fill_returns (stores : Stores cells rest store n) {f : Nat → Except ε α} {s : σ}
    {values : List α} (room : (cells s).length = n) (come : (List.range n).mapM f = .ok values) :
    ∃ s', fill store f n s = .ok s' ∧ cells s' = values ∧ rest s' = rest s := by
  rcases fill_upto stores f room (Nat.le_refl n) with ⟨e, failed, _⟩ | ⟨_, s', _, ran, _, _⟩
  · rw [failed] at come
    cases come
  · obtain ⟨same, kept⟩ := fill_returned stores room ran
    rw [come] at same
    cases same
    exact ⟨s', ran, rfl, kept⟩

end

/-! ### Every `step`th item -/

variable {α : Type u}

/-- Passes over `wait` items before the next one it takes. -/
def strided (step : Nat) : Nat → List α → List α
  | _, [] => []
  | 0, x :: rest => x :: strided step (step - 1) rest
  | wait + 1, _ :: rest => strided step wait rest

theorem strided_getElem? {step : Nat} (positive : 0 < step) (wait : Nat) (l : List α) (k : Nat) :
    (strided step wait l)[k]? = l[wait + k * step]? := by
  induction l generalizing wait k with
  | nil => simp [strided]
  | cons x rest ih =>
    cases wait with
    | succ wait =>
      have index : wait + 1 + k * step = wait + k * step + 1 := by omega
      rw [strided, ih, index, List.getElem?_cons_succ]
    | zero =>
      cases k with
      | zero => simp [strided]
      | succ k =>
        have index : 0 + (k + 1) * step = step - 1 + k * step + 1 := by
          rw [Nat.add_mul]
          omega
        rw [strided, List.getElem?_cons_succ, ih, index, List.getElem?_cons_succ]

end RowMajor
