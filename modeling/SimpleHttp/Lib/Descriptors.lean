import Mathlib.Data.Finset.Option
import Mathlib.Data.Finset.Range
import Mathlib.Data.Fintype.Basic
import Mathlib.Data.Fintype.EquivFin
import Mathlib.Data.List.FinRange

namespace SimpleHttp.Lib

/-!
# Library — descriptors, `fd_set`s and tables of slots

* `FdEvent`, `openFrom` — descriptors opened and closed, and those open in the end.
* `FreshFrom`, `ClosesOpenFrom` — a descriptor is only opened while it is not open, and only
  closed while it is.
* `FdSet n` — a set of descriptors below `n`.
* `held`, `Distinct`, `firstEmpty` — the values in a table of `n` slots.
* `lowestFree` — the lowest number not in use, and when it reaches a bound.
-/

/-! ### Opening and closing -/

/-- What a log says of a descriptor. -/
inductive FdEvent where
  | opened (fd : ℕ)
  | closed (fd : ℕ)
  deriving DecidableEq

/-- The descriptors open after the events, if those of `s` are open before. -/
def openFrom (s : Finset ℕ) : List FdEvent → Finset ℕ
  | [] => s
  | .opened fd :: es => openFrom (insert fd s) es
  | .closed fd :: es => openFrom (s.erase fd) es

/-- What is opened is not open at that moment; the descriptors of `base` are open throughout. -/
def FreshFrom (base s : Finset ℕ) : List FdEvent → Prop
  | [] => True
  | .opened fd :: es => (fd ∉ base ∧ fd ∉ s) ∧ FreshFrom base (insert fd s) es
  | .closed fd :: es => FreshFrom base (s.erase fd) es

/-- What is closed is open at that moment. -/
def ClosesOpenFrom (s : Finset ℕ) : List FdEvent → Prop
  | [] => True
  | .opened fd :: es => ClosesOpenFrom (insert fd s) es
  | .closed fd :: es => fd ∈ s ∧ ClosesOpenFrom (s.erase fd) es

theorem openFrom_append (s : Finset ℕ) (a b : List FdEvent) :
    openFrom s (a ++ b) = openFrom (openFrom s a) b := by
  fun_induction openFrom s a with
  | case1 => rfl
  | case2 s fd es ih => exact ih
  | case3 s fd es ih => exact ih

/-- Descriptors are fresh along two logs if they are along each. -/
theorem freshFrom_append (base s : Finset ℕ) (a b : List FdEvent) :
    FreshFrom base s (a ++ b) ↔ FreshFrom base s a ∧ FreshFrom base (openFrom s a) b := by
  fun_induction openFrom s a with
  | case1 => simp [FreshFrom]
  | case2 s fd es ih => simp only [List.cons_append, FreshFrom, ih, and_assoc]
  | case3 s fd es ih => simp only [List.cons_append, FreshFrom, ih]

/-- Along two logs only open descriptors are closed if so along each. -/
theorem closesOpenFrom_append (s : Finset ℕ) (a b : List FdEvent) :
    ClosesOpenFrom s (a ++ b) ↔ ClosesOpenFrom s a ∧ ClosesOpenFrom (openFrom s a) b := by
  fun_induction openFrom s a with
  | case1 => simp [ClosesOpenFrom]
  | case2 s fd es ih => simp only [List.cons_append, ClosesOpenFrom, ih]
  | case3 s fd es ih => simp only [List.cons_append, ClosesOpenFrom, ih, and_assoc]

/-- What is open was opened, so it is not among the descriptors open throughout. -/
theorem disjoint_openFrom {base s : Finset ℕ} {es : List FdEvent} (h : FreshFrom base s es)
    (hs : Disjoint base s) : Disjoint base (openFrom s es) := by
  fun_induction openFrom s es with
  | case1 => exact hs
  | case2 s fd es ih =>
    exact ih h.2 (Finset.disjoint_insert_right.mpr ⟨h.1.1, hs⟩)
  | case3 s fd es ih => exact ih h (hs.mono_right (Finset.erase_subset _ _))

/-! ### Sets of descriptors -/

/-- A set of descriptors below `n`. -/
@[ext] structure FdSet (n : ℕ) where
  members : Finset ℕ
  lt : ∀ fd ∈ members, fd < n
  deriving DecidableEq

namespace FdSet

variable {n : ℕ}

/-- `FD_ZERO`. -/
def empty : FdSet n := ⟨∅, by simp⟩

/-- The set with a descriptor in range added. -/
def insert (s : FdSet n) (fd : ℕ) (h : fd < n) : FdSet n :=
  ⟨Insert.insert fd s.members, by
    intro fd' hfd'
    rcases Finset.mem_insert.mp hfd' with rfl | hfd'
    · exact h
    · exact s.lt fd' hfd'⟩

/-- `FD_CLR`. -/
def erase (s : FdSet n) (fd : ℕ) : FdSet n :=
  ⟨s.members.erase fd, fun fd' h => s.lt fd' (Finset.mem_of_mem_erase h)⟩

/-- The set that `select` leaves: the members that are ready. -/
def filter (s : FdSet n) (p : ℕ → Prop) [DecidablePred p] : FdSet n :=
  ⟨s.members.filter p, fun fd h => s.lt fd (Finset.mem_of_mem_filter fd h)⟩

end FdSet

/-! ### Tables of slots -/

variable {n : ℕ} {α : Type}

/-- No two slots hold the same value. -/
def Distinct (slots : Fin n → Option α) : Prop :=
  ∀ i j v, slots i = some v → slots j = some v → i = j

/-- The first slot that holds nothing. -/
def firstEmpty (slots : Fin n → Option α) : Option (Fin n) :=
  (List.finRange n).find? fun i => (slots i).isNone

/-- The slot found is empty. -/
theorem firstEmpty_eq_some {slots : Fin n → Option α} {i : Fin n} (h : firstEmpty slots = some i) :
    slots i = none := by
  simpa using List.find?_some h

/-- If none is found, all are in use. -/
theorem firstEmpty_eq_none {slots : Fin n → Option α} (h : firstEmpty slots = none) (i : Fin n) :
    slots i ≠ none := by
  simpa using List.find?_eq_none.mp h i (List.mem_finRange i)

/-- Emptying a slot makes no value appear twice. -/
theorem Distinct.free {slots : Fin n → Option α} (hd : Distinct slots) (i : Fin n) :
    Distinct (Function.update slots i none) := by
  intro j k w hj hk
  have hof : ∀ l, Function.update slots i none l = some w → slots l = some w := by
    intro l hl
    by_cases hli : l = i
    · subst hli; rw [Function.update_self] at hl; cases hl
    · rwa [Function.update_of_ne hli] at hl
  exact hd j k w (hof j hj) (hof k hk)

variable [DecidableEq α]

/-- The values in the slots. -/
def held (slots : Fin n → Option α) : Finset α := (Finset.univ.image slots).eraseNone

/-- What is held is in a slot. -/
theorem mem_held {slots : Fin n → Option α} {v : α} : v ∈ held slots ↔ ∃ i, slots i = some v := by
  simp [held, Finset.mem_eraseNone]

/-- An empty slot that is filled adds its value. -/
theorem held_fill {slots : Fin n → Option α} {i : Fin n} (h : slots i = none) (v : α) :
    held (Function.update slots i (some v)) = insert v (held slots) := by
  ext w
  simp only [mem_held, Finset.mem_insert]
  constructor
  · rintro ⟨j, hj⟩
    by_cases hij : j = i
    · subst hij; rw [Function.update_self] at hj; exact Or.inl (Option.some.inj hj).symm
    · rw [Function.update_of_ne hij] at hj; exact Or.inr ⟨j, hj⟩
  · rintro (rfl | ⟨j, hj⟩)
    · exact ⟨i, Function.update_self ..⟩
    · have hij : j ≠ i := by rintro rfl; rw [h] at hj; cases hj
      exact ⟨j, by rw [Function.update_of_ne hij, hj]⟩

/-- A slot that is emptied gives up its value. -/
theorem held_free {slots : Fin n → Option α} (hd : Distinct slots) {i : Fin n} {v : α}
    (h : slots i = some v) : held (Function.update slots i none) = (held slots).erase v := by
  ext w
  simp only [mem_held, Finset.mem_erase]
  constructor
  · rintro ⟨j, hj⟩
    have hij : j ≠ i := by rintro rfl; rw [Function.update_self] at hj; cases hj
    rw [Function.update_of_ne hij] at hj
    exact ⟨by rintro rfl; exact hij (hd j i w hj h), j, hj⟩
  · rintro ⟨hw, j, hj⟩
    have hij : j ≠ i := by rintro rfl; rw [h] at hj; exact hw (Option.some.inj hj).symm
    exact ⟨j, by rw [Function.update_of_ne hij, hj]⟩

/-- A value that is held nowhere may go into any slot. -/
theorem Distinct.fill {slots : Fin n → Option α} (hd : Distinct slots) {v : α}
    (hv : v ∉ held slots) (i : Fin n) : Distinct (Function.update slots i (some v)) := by
  intro j k w hj hk
  -- the new value is in no slot but `i`
  have hne : ∀ l, l ≠ i → slots l ≠ some v := fun l _ hl => hv (mem_held.mpr ⟨l, hl⟩)
  by_cases hji : j = i <;> by_cases hki : k = i
  · rw [hji, hki]
  · subst hji
    rw [Function.update_self] at hj
    rw [Function.update_of_ne hki, ← hj] at hk
    exact absurd hk (hne k hki)
  · subst hki
    rw [Function.update_self] at hk
    rw [Function.update_of_ne hji, ← hk] at hj
    exact absurd hj (hne j hji)
  · rw [Function.update_of_ne hji] at hj
    rw [Function.update_of_ne hki] at hk
    exact hd j k w hj hk

/-- A full table holds as many values as it has slots. -/
theorem card_held_of_full {slots : Fin n → Option α} (hd : Distinct slots)
    (hfull : firstEmpty slots = none) : (held slots).card = n := by
  have hinj : Function.Injective slots := by
    intro i j hij
    obtain ⟨v, hv⟩ := Option.ne_none_iff_exists'.mp (firstEmpty_eq_none hfull i)
    exact hd i j v hv (hij ▸ hv)
  have hnone : none ∉ Finset.univ.image slots := by
    simp only [Finset.mem_image, Finset.mem_univ, true_and, not_exists]
    exact firstEmpty_eq_none hfull
  rw [held, Finset.card_eraseNone_of_not_mem hnone, Finset.card_image_of_injective _ hinj,
    Finset.card_univ, Fintype.card_fin]

/-! ### The lowest free number -/

/-- The lowest number that is not in use. -/
def lowestFree (inUse : Finset ℕ) : ℕ := Nat.find (Infinite.exists_notMem_finset inUse)

/-- The number found is free. -/
theorem lowestFree_notMem (inUse : Finset ℕ) : lowestFree inUse ∉ inUse :=
  Nat.find_spec (Infinite.exists_notMem_finset inUse)

/-- All numbers below the free one are in use. -/
theorem mem_of_lt_lowestFree {inUse : Finset ℕ} {k : ℕ} (h : k < lowestFree inUse) : k ∈ inUse :=
  not_not.mp (Nat.find_min (Infinite.exists_notMem_finset inUse) h)

/-- If everything in use is below `n`, the lowest free number is not, exactly if `n` numbers are
    in use. -/
theorem le_lowestFree_iff {inUse : Finset ℕ} {n : ℕ} (h : ∀ k ∈ inUse, k < n) :
    n ≤ lowestFree inUse ↔ inUse.card = n := by
  have hsub : inUse ⊆ Finset.range n := fun k hk => Finset.mem_range.mpr (h k hk)
  constructor
  · -- all numbers below `n` are in use
    intro hle
    have hall : Finset.range n ⊆ inUse := fun k hk =>
      mem_of_lt_lowestFree (lt_of_lt_of_le (Finset.mem_range.mp hk) hle)
    rw [Finset.Subset.antisymm hsub hall, Finset.card_range]
  · -- `n` numbers below `n` are all of them
    intro hcard
    have heq : inUse = Finset.range n :=
      Finset.eq_of_subset_of_card_le hsub (by rw [hcard, Finset.card_range])
    by_contra hlt
    apply lowestFree_notMem inUse
    apply heq.symm.subset
    exact Finset.mem_range.mpr (Nat.lt_of_not_le hlt)

/-- With the first `n` numbers in use, the free one is `n`. -/
theorem lowestFree_range (n : ℕ) : lowestFree (Finset.range n) = n := by
  have hle : n ≤ lowestFree (Finset.range n) :=
    (le_lowestFree_iff fun k hk => Finset.mem_range.mp hk).mpr (Finset.card_range n)
  have hge : ¬ n < lowestFree (Finset.range n) := fun hlt =>
    Finset.notMem_range_self (mem_of_lt_lowestFree hlt)
  omega

end SimpleHttp.Lib
