import Mathlib.Logic.Function.Basic

namespace SimpleHttp.Lib

/-!
# Library — a heap of objects of one type

Objects are numbered as they are allocated, and no number is used twice.  `fresh` is a field, so
that whatever is allocated is apart from all that was there before.

* `Heap.write`, `Heap.alloc`, `Heap.free`, each with what it does to `cells`.
* `ok_bind`, `error_bind`, `pure_ok` — a computation that may fault, step by step.
-/

section Faults

variable {φ α β : Type}

@[simp] theorem ok_bind (a : α) (f : α → Except φ β) : ((.ok a : Except φ α) >>= f) = f a := rfl

@[simp] theorem error_bind (e : φ) (f : α → Except φ β) :
    ((.error e : Except φ α) >>= f) = .error e := rfl

@[simp] theorem pure_ok (a : α) : (pure a : Except φ α) = .ok a := rfl

end Faults

/-- The address of an object. -/
abbrev Addr := Nat

/-- A pointer; `none` is `NULL`. -/
abbrev Ptr := Option Addr

/-- A heap: its cells, and the address that the next allocation takes. -/
structure Heap (α : Type) where
  cells : Addr → Option α
  next : Addr
  fresh : ∀ a, next ≤ a → cells a = none

namespace Heap

variable {α : Type}

/-- Nothing is allocated. -/
def empty : Heap α := ⟨fun _ => none, 0, fun _ _ => rfl⟩

/-- There is an object. -/
def Live (h : Heap α) (a : Addr) : Prop := (h.cells a).isSome

/-- The object at `a` replaced, if there is one. -/
def write (h : Heap α) (a : Addr) (c : α) : Heap α where
  cells := Function.update h.cells a ((h.cells a).map fun _ => c)
  next := h.next
  fresh := by
    intro b hb
    by_cases hba : b = a
    · subst hba
      simp [h.fresh b hb]
    · rw [Function.update_of_ne hba, h.fresh b hb]

/-- A new object, at the address `h.next`. -/
def alloc (h : Heap α) (c : α) : Heap α where
  cells := Function.update h.cells h.next (some c)
  next := h.next + 1
  fresh := by
    intro b hb
    rw [Function.update_of_ne (Nat.ne_of_gt hb), h.fresh b (Nat.le_of_succ_le hb)]

/-- `free`; the address is not used again. -/
def free (h : Heap α) (a : Addr) : Heap α where
  cells := Function.update h.cells a none
  next := h.next
  fresh := by
    intro b hb
    by_cases hba : b = a
    · subst hba
      simp
    · rw [Function.update_of_ne hba, h.fresh b hb]

/-- Allocated is what has a cell. -/
theorem live_iff {h : Heap α} {a : Addr} : h.Live a ↔ ∃ c, h.cells a = some c :=
  Option.isSome_iff_exists

/-- What is allocated lies below the next address. -/
theorem lt_next {h : Heap α} {a : Addr} {c : α} (hc : h.cells a = some c) : a < h.next := by
  by_contra hlt
  rw [h.fresh a (Nat.le_of_not_lt hlt)] at hc
  cases hc

/-- A write is read back. -/
theorem cells_write_self {h : Heap α} {a : Addr} {b : α} (hb : h.cells a = some b) (c : α) :
    (h.write a c).cells a = some c := by
  simp [write, hb]

theorem cells_write_of_ne (h : Heap α) {a b : Addr} (hne : b ≠ a) (c : α) :
    (h.write a c).cells b = h.cells b := Function.update_of_ne hne ..

/-- A write allocates and frees nothing. -/
@[simp] theorem live_write (h : Heap α) (a b : Addr) (c : α) :
    (h.write a c).Live b ↔ h.Live b := by
  by_cases hba : b = a
  · subst hba
    simp [Live, write]
  · rw [Live, cells_write_of_ne h hba, Live]

@[simp] theorem next_write (h : Heap α) (a : Addr) (c : α) : (h.write a c).next = h.next := rfl

/-- A new cell has the contents it was made with. -/
theorem cells_alloc_self (h : Heap α) (c : α) : (h.alloc c).cells h.next = some c :=
  Function.update_self ..

theorem cells_alloc_of_ne (h : Heap α) {b : Addr} (hne : b ≠ h.next) (c : α) :
    (h.alloc c).cells b = h.cells b := Function.update_of_ne hne ..

@[simp] theorem cells_free_self (h : Heap α) (a : Addr) : (h.free a).cells a = none :=
  Function.update_self ..

theorem cells_free_of_ne (h : Heap α) {a b : Addr} (hne : b ≠ a) :
    (h.free a).cells b = h.cells b := Function.update_of_ne hne ..

end Heap

end SimpleHttp.Lib
