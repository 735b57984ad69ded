import Mathlib.Data.List.Lookmap
import Mathlib.Data.List.Count

namespace SimpleHttp.Lib

/-!
# Library — lists read class by class

The entries of a list have keys, and the keys fall into classes.  A reader who names a key sees
the entries of its class, in their order; how entries of different classes lie to one another is
not seen.

* `modifyFirst` — the first entry that passes a test, changed.
* `ClassEq` — two lists that look the same to such a reader.
* `OnePerClass` — no two entries of one class: a list that a reader takes for a finite map.
* `ClassEq.find?_eq`, `ClassEq.eraseP`, `ClassEq.modifyFirst` — they stay so under the operations
  on the first entry of a class; `ClassEq.perm` — and they have the same entries.
-/

/-! ### The first entry that passes a test -/

section First

variable {β : Type} {p : β → Bool} {g : β → β} {x : β} {l l₁ l₂ : List β}

/-- `g` at the first item that passes the test. -/
def modifyFirst (p : β → Bool) (g : β → β) (l : List β) : List β :=
  l.lookmap fun x => if p x then some (g x) else none

@[simp] theorem modifyFirst_nil : modifyFirst p g [] = [] := rfl

/-- The head passes the test. -/
theorem modifyFirst_cons_pos (h : p x = true) : modifyFirst p g (x :: l) = g x :: l :=
  List.lookmap_cons_some _ l (if_pos h)

/-- The head does not pass the test. -/
theorem modifyFirst_cons_neg (h : p x = false) :
    modifyFirst p g (x :: l) = x :: modifyFirst p g l :=
  List.lookmap_cons_none _ l (if_neg (Bool.eq_false_iff.mp h))

/-- Nothing comes in and nothing goes out. -/
@[simp] theorem length_modifyFirst : (modifyFirst p g l).length = l.length :=
  List.length_lookmap _ l

variable (h₁ : ∀ y ∈ l₁, p y = false) (hx : p x = true)
include h₁ hx

/-- The first item is found. -/
theorem find?_append_cons : (l₁ ++ x :: l₂).find? p = some x := by
  rw [List.find?_append, List.find?_eq_none.mpr (by simpa using h₁), Option.none_or,
    List.find?_cons_of_pos hx]

/-- The first item is taken out. -/
theorem eraseP_append_cons : (l₁ ++ x :: l₂).eraseP p = l₁ ++ l₂ := by
  rw [List.eraseP_append_right _ (by simpa using h₁), List.eraseP_cons_of_pos hx]

/-- The first item is changed. -/
theorem modifyFirst_append_cons : modifyFirst p g (l₁ ++ x :: l₂) = l₁ ++ g x :: l₂ := by
  induction l₁ with
  | nil => exact modifyFirst_cons_pos hx
  | cons y l₁ ih =>
    rw [List.cons_append, modifyFirst_cons_neg (h₁ y List.mem_cons_self), ih fun z hz =>
      h₁ z (List.mem_cons_of_mem _ hz)]
    rfl

end First

/-! ### Filters of what is left -/

section Filters

variable {β : Type} {p q : β → Bool} {g : β → β}

/-- Of the items that pass the test, the first is missing. -/
theorem filter_eraseP_self (l : List β) : (l.eraseP p).filter p = (l.filter p).tail := by
  induction l with
  | nil => rfl
  | cons x l ih =>
    cases hx : p x with
    | true => rw [List.eraseP_cons_of_pos hx, List.filter_cons_of_pos hx, List.tail_cons]
    | false =>
      have hn : ¬p x = true := Bool.eq_false_iff.mp hx
      rw [List.eraseP_cons_of_neg hn, List.filter_cons_of_neg hn, List.filter_cons_of_neg hn, ih]

/-- Items of another kind are all there. -/
theorem filter_eraseP_of_apart (h : ∀ x, p x = true → q x = false) (l : List β) :
    (l.eraseP p).filter q = l.filter q := by
  induction l with
  | nil => rfl
  | cons x l ih =>
    cases hx : p x with
    | true =>
      rw [List.eraseP_cons_of_pos hx, List.filter_cons_of_neg (Bool.eq_false_iff.mp (h x hx))]
    | false =>
      rw [List.eraseP_cons_of_neg (Bool.eq_false_iff.mp hx), List.filter_cons, ih,
        List.filter_cons]

/-- Of the items that pass the test, the first is changed. -/
theorem filter_modifyFirst_self (hg : ∀ x, p (g x) = p x) (l : List β) :
    (modifyFirst p g l).filter p = (l.filter p).modifyHead g := by
  induction l with
  | nil => rfl
  | cons x l ih =>
    cases hx : p x with
    | true =>
      rw [modifyFirst_cons_pos hx, List.filter_cons_of_pos ((hg x).trans hx),
        List.filter_cons_of_pos hx]
      rfl
    | false =>
      have hn : ¬p x = true := Bool.eq_false_iff.mp hx
      rw [modifyFirst_cons_neg hx, List.filter_cons_of_neg hn, List.filter_cons_of_neg hn, ih]

/-- Items of another kind are as they were. -/
theorem filter_modifyFirst_of_apart (hg : ∀ x, p (g x) = p x)
    (h : ∀ x, p x = true → q x = false) (l : List β) :
    (modifyFirst p g l).filter q = l.filter q := by
  induction l with
  | nil => rfl
  | cons x l ih =>
    cases hx : p x with
    | true =>
      rw [modifyFirst_cons_pos hx, List.filter_cons_of_neg (Bool.eq_false_iff.mp (h x hx)),
        List.filter_cons_of_neg (Bool.eq_false_iff.mp (h _ ((hg x).trans hx)))]
    | false => rw [modifyFirst_cons_neg hx, List.filter_cons, ih, List.filter_cons]

end Filters

/-! ### Lists that agree on every class -/

section Classes

variable {κ β : Type} {r : κ → κ → Bool} {key : β → κ} {L L' L'' : List β}

/-- The entries of the class of `k`. -/
def ofClass (r : κ → κ → Bool) (key : β → κ) (k : κ) (x : β) : Bool := r k (key x)

/-- Lists with the same items of every class, in the same order. -/
def ClassEq (r : κ → κ → Bool) (key : β → κ) (L L' : List β) : Prop :=
  ∀ k, L.filter (ofClass r key k) = L'.filter (ofClass r key k)

theorem ClassEq.refl (r : κ → κ → Bool) (key : β → κ) (L : List β) : ClassEq r key L L :=
  fun _ => rfl

theorem ClassEq.symm (h : ClassEq r key L L') : ClassEq r key L' L := fun k => (h k).symm

theorem ClassEq.trans (h : ClassEq r key L L') (h' : ClassEq r key L' L'') :
    ClassEq r key L L'' := fun k => (h k).trans (h' k)

theorem ClassEq.cons (h : ClassEq r key L L') (x : β) : ClassEq r key (x :: L) (x :: L') := by
  intro k
  rw [List.filter_cons, h k, List.filter_cons]

theorem ClassEq.reverse (h : ClassEq r key L L') : ClassEq r key L.reverse L'.reverse := by
  intro k
  rw [List.filter_reverse, h k, List.filter_reverse]

/-- An entry may move past others that are not of its class. -/
theorem ClassEq.middle {x : β} {l₁ l₂ : List β}
    (h : ∀ k, ofClass r key k x = true → ∀ y ∈ l₁, ofClass r key k y = false) :
    ClassEq r key (l₁ ++ x :: l₂) (x :: (l₁ ++ l₂)) := by
  intro k
  rw [List.filter_append]
  cases hx : ofClass r key k x with
  | true =>
    rw [List.filter_eq_nil_iff.mpr fun y hy => Bool.eq_false_iff.mp (h k hx y hy),
      List.nil_append, List.filter_cons_of_pos hx, List.filter_cons_of_pos hx, List.filter_append,
      List.filter_eq_nil_iff.mpr fun y hy => Bool.eq_false_iff.mp (h k hx y hy), List.nil_append]
  | false =>
    have hn : ¬ofClass r key k x = true := Bool.eq_false_iff.mp hx
    rw [List.filter_cons_of_neg hn, List.filter_cons_of_neg hn, List.filter_append]

/-- No search tells such lists apart. -/
theorem ClassEq.find?_eq (h : ClassEq r key L L') (k : κ) :
    L.find? (ofClass r key k) = L'.find? (ofClass r key k) := by
  rw [← List.head?_filter, h k, List.head?_filter]

variable (hr : Equivalence fun a b => r a b = true)
include hr

/-- Related keys have one class. -/
theorem ofClass_congr {k k' : κ} (h : r k k' = true) : ofClass r key k = ofClass r key k' := by
  funext x
  rw [ofClass, ofClass, Bool.eq_iff_iff]
  exact ⟨hr.trans (hr.symm h), hr.trans h⟩

/-- Keys that are not related have nothing in common. -/
theorem ofClass_apart {k k' : κ} (h : r k k' = false) (x : β) (hx : ofClass r key k x = true) :
    ofClass r key k' x = false := by
  rw [Bool.eq_false_iff]
  intro hx'
  rw [hr.trans hx (hr.symm hx')] at h
  cases h

/-- The first item of a class taken out of both. -/
theorem ClassEq.eraseP (h : ClassEq r key L L') (k : κ) :
    ClassEq r key (L.eraseP (ofClass r key k)) (L'.eraseP (ofClass r key k)) := by
  intro k'
  cases hk : r k k' with
  | true =>
    rw [← ofClass_congr hr hk, filter_eraseP_self, h k, filter_eraseP_self]
  | false =>
    rw [filter_eraseP_of_apart (ofClass_apart hr hk), h k',
      filter_eraseP_of_apart (ofClass_apart hr hk)]

/-- The first item of a class changed in both. -/
theorem ClassEq.modifyFirst (h : ClassEq r key L L') (k : κ) {g : β → β}
    (hg : ∀ x, key (g x) = key x) :
    ClassEq r key (modifyFirst (ofClass r key k) g L) (modifyFirst (ofClass r key k) g L') := by
  have hg' : ∀ x, ofClass r key k (g x) = ofClass r key k x := fun x => by
    rw [ofClass, hg, ofClass]
  intro k'
  cases hk : r k k' with
  | true =>
    rw [← ofClass_congr hr hk, filter_modifyFirst_self hg', h k, filter_modifyFirst_self hg']
  | false =>
    rw [filter_modifyFirst_of_apart hg' (ofClass_apart hr hk), h k',
      filter_modifyFirst_of_apart hg' (ofClass_apart hr hk)]

/-- Every entry is in the class of its own key, and counted there. -/
theorem ClassEq.perm [DecidableEq β] (h : ClassEq r key L L') : L.Perm L' := by
  rw [List.perm_iff_count]
  intro x
  have hx : ofClass r key (key x) x = true := hr.refl (key x)
  rw [← List.count_filter hx, h (key x), List.count_filter hx]

/-! ### Finite maps -/

omit hr

/-- No two entries of one class. -/
def OnePerClass (r : κ → κ → Bool) (key : β → κ) (L : List β) : Prop :=
  ∀ k, (L.filter (ofClass r key k)).length ≤ 1

/-- The empty list has no item at all. -/
theorem onePerClass_nil (r : κ → κ → Bool) (key : β → κ) : OnePerClass r key [] := fun _ => Nat.zero_le 1

/-- Where a search fails, the filter leaves nothing. -/
theorem filter_eq_nil_of_find? {p : β → Bool} (h : L.find? p = none) : L.filter p = [] :=
  List.filter_eq_nil_iff.mpr (by simpa using h)

/-- Turned around, a list has as many items of a class. -/
theorem OnePerClass.reverse (h : OnePerClass r key L) : OnePerClass r key L.reverse := by
  intro k
  rw [List.filter_reverse, List.length_reverse]
  exact h k

/-- With one item a class, a search does not see the order. -/
theorem OnePerClass.find?_reverse (h : OnePerClass r key L) (k : κ) :
    L.reverse.find? (ofClass r key k) = L.find? (ofClass r key k) := by
  have hk := h k
  rw [← List.head?_filter, List.filter_reverse, ← List.head?_filter]
  cases hL : L.filter (ofClass r key k) with
  | nil => rfl
  | cons x l =>
    rw [hL, List.length_cons] at hk
    obtain rfl : l = [] := List.eq_nil_of_length_eq_zero (by omega)
    rfl

/-- Without some item, no class has more of them. -/
theorem OnePerClass.eraseP (h : OnePerClass r key L) (p : β → Bool) : OnePerClass r key (L.eraseP p) :=
  fun k => Nat.le_trans (List.eraseP_sublist.filter _).length_le (h k)

/-- A change that keeps the key keeps all keys. -/
theorem map_key_modifyFirst (p : β → Bool) {g : β → β} (hg : ∀ x, key (g x) = key x)
    (L : List β) : (Lib.modifyFirst p g L).map key = L.map key := by
  refine List.lookmap_map_eq _ key (fun x y hy => ?_) L
  split at hy
  · cases hy
    exact (hg x).symm
  · cases hy

/-- A change that keeps the key keeps one item a class. -/
theorem OnePerClass.modifyFirst (h : OnePerClass r key L) (p : β → Bool) {g : β → β}
    (hg : ∀ x, key (g x) = key x) : OnePerClass r key (modifyFirst p g L) := by
  have hcount : ∀ k (l : List β), (l.filter (ofClass r key k)).length = (l.map key).countP (r k) := by
    intro k l
    rw [List.countP_map, List.countP_eq_length_filter]
    rfl
  intro k
  rw [hcount, map_key_modifyFirst p hg, ← hcount]
  exact h k

include hr

/-- A new item, of a class that is not there yet. -/
theorem OnePerClass.cons (h : OnePerClass r key L) {x : β}
    (hx : L.find? (ofClass r key (key x)) = none) : OnePerClass r key (x :: L) := by
  intro k
  cases hk : ofClass r key k x with
  | true =>
    rw [List.filter_cons_of_pos hk, ofClass_congr hr hk, filter_eq_nil_of_find? hx]
    exact Nat.le_refl 1
  | false =>
    rw [List.filter_cons_of_neg (Bool.eq_false_iff.mp hk)]
    exact h k

/-- A search behind a change, in the class of the change or in another. -/
theorem find?_modifyFirst (k k' : κ) {g : β → β} (hg : ∀ x, key (g x) = key x) (L : List β) :
    (modifyFirst (ofClass r key k) g L).find? (ofClass r key k') =
      if r k k' then (L.find? (ofClass r key k)).map g else L.find? (ofClass r key k') := by
  have hg' : ∀ x, ofClass r key k (g x) = ofClass r key k x := fun x => by
    rw [ofClass, hg, ofClass]
  cases hk : r k k' with
  | true =>
    rw [if_pos rfl, ← ofClass_congr hr hk, ← List.head?_filter, filter_modifyFirst_self hg',
      ← List.head?_filter]
    cases L.filter (ofClass r key k) <;> rfl
  | false =>
    rw [if_neg Bool.false_ne_true, ← List.head?_filter,
      filter_modifyFirst_of_apart hg' (ofClass_apart hr hk), List.head?_filter]

/-- A search behind a removal: the class is empty now. -/
theorem OnePerClass.find?_eraseP (h : OnePerClass r key L) (k k' : κ) :
    (L.eraseP (ofClass r key k)).find? (ofClass r key k') =
      if r k k' then none else L.find? (ofClass r key k') := by
  cases hk : r k k' with
  | true =>
    have hlen := h k
    rw [if_pos rfl, ← ofClass_congr hr hk, ← List.head?_filter, filter_eraseP_self]
    cases hL : L.filter (ofClass r key k) with
    | nil => rfl
    | cons x l =>
      rw [hL, List.length_cons] at hlen
      obtain rfl : l = [] := List.eq_nil_of_length_eq_zero (by omega)
      rfl
  | false =>
    rw [if_neg Bool.false_ne_true, ← List.head?_filter,
      filter_eraseP_of_apart (ofClass_apart hr hk), List.head?_filter]

end Classes

end SimpleHttp.Lib
