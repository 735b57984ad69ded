import Mathlib.Data.List.Nodup
import Mathlib.Data.List.Perm.Subperm
import SimpleHttp.Lib.Heap

namespace SimpleHttp.Lib

/-!
# Library — singly linked chains in a heap, and rows of them

`Seg h p l q`: from the pointer `p` the cells `l` follow one another, and the last one points to
`q`.  A chain is a segment that ends with `NULL`.

* `seg_append` — a chain, cut at any of its cells.
* `Seg.congr` — what is written elsewhere leaves a segment alone.
* `Seg.set_item`, `Seg.unlink` — the edits in the middle of a chain.
* `rows` — the cells of a row of chains in order, and `rows_update`, one of them replaced.
* `stretch` — the cells of some consecutive chains.
* `dealt` — the entries of a list, laid one by one on the heads of a row.
-/

/-- A cell of a chain. -/
structure Node (α : Type) where
  item : α
  next : Ptr
  deriving DecidableEq

variable {α : Type}

/-- The cells from `p` to `q`, with their addresses and contents. -/
def Seg (h : Heap (Node α)) : Ptr → List (Addr × α) → Ptr → Prop
  | p, [], q => p = q
  | p, (a, x) :: l, q => p = some a ∧ ∃ n, h.cells a = some ⟨x, n⟩ ∧ Seg h n l q

/-- A segment that ends at `NULL`. -/
abbrev Chain (h : Heap (Node α)) (p : Ptr) (l : List (Addr × α)) : Prop := Seg h p l none

/-- The addresses of some cells. -/
def addrs (l : List (Addr × α)) : List Addr := l.map Prod.fst

@[simp] theorem addrs_nil : addrs ([] : List (Addr × α)) = [] := rfl

@[simp] theorem addrs_cons (x : Addr × α) (l : List (Addr × α)) :
    addrs (x :: l) = x.1 :: addrs l := rfl

@[simp] theorem addrs_append (l₁ l₂ : List (Addr × α)) :
    addrs (l₁ ++ l₂) = addrs l₁ ++ addrs l₂ := List.map_append

/-- An entry's address is one of the addresses. -/
theorem mem_addrs {x : Addr × α} {l : List (Addr × α)} (h : x ∈ l) : x.1 ∈ addrs l :=
  List.mem_map_of_mem h

variable {h h' : Heap (Node α)} {p q : Ptr} {l l₁ l₂ : List (Addr × α)}

@[simp] theorem seg_nil : Seg h p [] q ↔ p = q := Iff.rfl

@[simp] theorem seg_cons {a : Addr} {x : α} :
    Seg h p ((a, x) :: l) q ↔ p = some a ∧ ∃ n, h.cells a = some ⟨x, n⟩ ∧ Seg h n l q := Iff.rfl

/-- A segment can be cut at any of its cells. -/
theorem seg_append : Seg h p (l₁ ++ l₂) q ↔ ∃ r, Seg h p l₁ r ∧ Seg h r l₂ q := by
  induction l₁ generalizing p with
  | nil => simp
  | cons x l₁ ih =>
    obtain ⟨a, x⟩ := x
    simp only [List.cons_append, seg_cons, ih]
    constructor
    · rintro ⟨hp, n, hc, r, h₁, h₂⟩
      exact ⟨r, ⟨hp, n, hc, h₁⟩, h₂⟩
    · rintro ⟨r, ⟨hp, n, hc, h₁⟩, h₂⟩
      exact ⟨hp, n, hc, r, h₁, h₂⟩

/-- **Frame.** -/
theorem Seg.congr (hseg : Seg h p l q) (hcells : ∀ a ∈ addrs l, h'.cells a = h.cells a) :
    Seg h' p l q := by
  induction l generalizing p with
  | nil => exact hseg
  | cons x l ih =>
    obtain ⟨a, x⟩ := x
    obtain ⟨hp, n, hc, hrest⟩ := hseg
    refine ⟨hp, n, (hcells a List.mem_cons_self).trans hc, ih hrest fun b hb => ?_⟩
    exact hcells b (List.mem_cons_of_mem _ hb)

/-- What is in the heap at an entry. -/
theorem Seg.cell (hseg : Seg h p l q) {x : Addr × α} (hx : x ∈ l) :
    ∃ n, h.cells x.1 = some ⟨x.2, n⟩ := by
  induction l generalizing p with
  | nil => cases hx
  | cons y l ih =>
    obtain ⟨b, y⟩ := y
    obtain ⟨-, n, hc, hrest⟩ := hseg
    rcases List.mem_cons.mp hx with rfl | hx
    · exact ⟨n, hc⟩
    · exact ih hrest hx

/-- A chain is known by its first cell. -/
theorem Seg.head_eq (hseg : Chain h p l) : p = l.head?.map Prod.fst := by
  cases l with
  | nil => exact hseg
  | cons x l => exact hseg.1

/-- The cells of a segment are allocated. -/
theorem Seg.live (hseg : Seg h p l q) {a : Addr} (ha : a ∈ addrs l) : h.Live a := by
  obtain ⟨x, hx, rfl⟩ := List.mem_map.mp ha
  obtain ⟨n, hc⟩ := hseg.cell hx
  exact Heap.live_iff.mpr ⟨_, hc⟩

/-- A pointer and a heap determine the chain. -/
theorem Seg.unique {l' : List (Addr × α)} (hseg : Chain h p l) (hseg' : Chain h p l') :
    l = l' := by
  induction l generalizing p l' with
  | nil =>
    cases l' with
    | nil => rfl
    | cons y l' => cases hseg; cases hseg'.1
  | cons x l ih =>
    obtain ⟨a, x⟩ := x
    obtain ⟨rfl, n, hc, hrest⟩ := hseg
    cases l' with
    | nil => cases hseg'
    | cons y l' =>
      obtain ⟨b, y⟩ := y
      obtain ⟨hp, n', hc', hrest'⟩ := hseg'
      cases hp
      rw [hc] at hc'
      cases hc'
      rw [ih hrest hrest']

/-- The cells of a chain are fewer than the objects of the heap. -/
theorem Seg.length_le (hseg : Seg h p l q) (hnd : (addrs l).Nodup) : l.length ≤ h.next := by
  have hsub : addrs l ⊆ List.range h.next := by
    intro a ha
    obtain ⟨c, hc⟩ := Heap.live_iff.mp (hseg.live ha)
    exact List.mem_range.mpr (Heap.lt_next hc)
  have hle := (List.subperm_of_subset hnd hsub).length_le
  rwa [List.length_range, addrs, List.length_map] at hle

/-! ### Edits -/

/-- A write to a cell outside of a segment leaves it alone. -/
theorem Seg.write (hseg : Seg h p l q) {a : Addr} (ha : a ∉ addrs l) (c : Node α) :
    Seg (h.write a c) p l q :=
  hseg.congr fun _ hb => Heap.cells_write_of_ne h (ne_of_mem_of_not_mem hb ha) c

/-- A `free` of a cell outside of a segment leaves it alone. -/
theorem Seg.free (hseg : Seg h p l q) {a : Addr} (ha : a ∉ addrs l) : Seg (h.free a) p l q :=
  hseg.congr fun _ hb => Heap.cells_free_of_ne h (ne_of_mem_of_not_mem hb ha)

/-- An allocation, which takes a new address, leaves every segment alone. -/
theorem Seg.alloc (hseg : Seg h p l q) (c : Node α) : Seg (h.alloc c) p l q := by
  refine hseg.congr fun b hb => Heap.cells_alloc_of_ne h ?_ c
  rintro rfl
  obtain ⟨c, hc⟩ := Heap.live_iff.mp (hseg.live hb)
  exact Nat.lt_irrefl _ (Heap.lt_next hc)

/-- The item of one cell replaced. -/
theorem Seg.set_item {a : Addr} {x y : α} {n : Ptr} (hseg : Seg h p (l₁ ++ (a, x) :: l₂) q)
    (hnd : (addrs (l₁ ++ (a, x) :: l₂)).Nodup) (hc : h.cells a = some ⟨x, n⟩) :
    Seg (h.write a ⟨y, n⟩) p (l₁ ++ (a, y) :: l₂) q := by
  rw [addrs_append, addrs_cons, List.nodup_append, List.nodup_cons] at hnd
  obtain ⟨-, ⟨ha₂, -⟩, hdis⟩ := hnd
  have ha₁ : a ∉ addrs l₁ := fun hin => hdis a hin a List.mem_cons_self rfl
  rw [seg_append] at hseg ⊢
  obtain ⟨r, h₁, rfl, n', hc', h₂⟩ := hseg
  obtain ⟨-, rfl⟩ := Node.mk.inj (Option.some.inj (hc.symm.trans hc'))
  exact ⟨some a, h₁.write ha₁ _, rfl, n, Heap.cells_write_self hc _, h₂.write ha₂ _⟩

/-- What points to the cell behind `l₁`: the last cell of `l₁`, if there is one. -/
def parentOf (l₁ : List (Addr × α)) : Ptr := l₁.getLast?.map Prod.fst

/-- **Unlinking** behind a cell `b`: it is made to point past the next one. -/
theorem Seg.unlink {a b : Addr} {x y : α} {n : Ptr}
    (hseg : Seg h p (l₁ ++ (b, y) :: (a, x) :: l₂) q)
    (hnd : (addrs (l₁ ++ (b, y) :: (a, x) :: l₂)).Nodup) (hc : h.cells a = some ⟨x, n⟩) :
    Seg (h.write b ⟨y, n⟩) p (l₁ ++ (b, y) :: l₂) q := by
  rw [addrs_append, addrs_cons, List.nodup_append, List.nodup_cons] at hnd
  obtain ⟨-, ⟨hb₂, -⟩, hdis⟩ := hnd
  have hb₁ : b ∉ addrs l₁ := fun hin => hdis b hin b List.mem_cons_self rfl
  rw [seg_append] at hseg ⊢
  obtain ⟨r, h₁, rfl, m, hb, rfl, n', ha, h₂⟩ := hseg
  obtain ⟨-, rfl⟩ := Node.mk.inj (Option.some.inj (hc.symm.trans ha))
  refine ⟨some b, h₁.write hb₁ _, rfl, n, Heap.cells_write_self hb _, h₂.write ?_ _⟩
  exact fun hin => hb₂ (List.mem_cons_of_mem _ hin)

/-! ### Rows of chains -/

/-- The cells of the first `n` chains of a row, in order. -/
def rows {β : Type} (b : Nat → List β) (n : Nat) : List β := (List.range n).flatMap b

/-- What is in the rows is in one of them. -/
theorem mem_rows {β : Type} {b : Nat → List β} {n : Nat} {x : β} :
    x ∈ rows b n ↔ ∃ i < n, x ∈ b i := by
  simp [rows]

/-- Rows are known by what is in them. -/
theorem rows_congr {β : Type} {b b' : Nat → List β} {n : Nat} (h : ∀ i < n, b i = b' i) :
    rows b n = rows b' n :=
  List.flatMap_congr fun i hi => h i (List.mem_range.mp hi)

/-- The cells of `n` chains of a row, from the `j`-th on. -/
def stretch {β : Type} (b : Nat → List β) (j n : Nat) : List β := (List.range' j n).flatMap b

@[simp] theorem stretch_zero {β : Type} (b : Nat → List β) (j : Nat) : stretch b j 0 = [] := rfl

/-- A stretch begins with the row that it begins at. -/
theorem stretch_succ {β : Type} (b : Nat → List β) (j n : Nat) :
    stretch b j (n + 1) = b j ++ stretch b (j + 1) n := rfl

/-- A stretch is known by the rows in it. -/
theorem stretch_congr {β : Type} {b b' : Nat → List β} {j n : Nat}
    (h : ∀ i, j ≤ i → i < j + n → b i = b' i) : stretch b j n = stretch b' j n := by
  refine List.flatMap_congr fun i hi => ?_
  obtain ⟨hle, hlt⟩ := List.mem_range'_1.mp hi
  exact h i hle hlt

/-- All rows are the stretch from 0 on. -/
theorem rows_eq_stretch {β : Type} (b : Nat → List β) (n : Nat) : rows b n = stretch b 0 n := by
  rw [rows, List.range_eq_range', stretch]

/-- A row, cut at one of its chains. -/
theorem rows_cut {β : Type} (b : Nat → List β) {n i : Nat} (hi : i < n) :
    rows b n = rows b i ++ b i ++ stretch b (i + 1) (n - (i + 1)) := by
  obtain ⟨k, rfl⟩ : ∃ k, n = i + (k + 1) := ⟨n - i - 1, by omega⟩
  rw [rows_eq_stretch, stretch, ← List.range'_append_1, List.flatMap_append, Nat.zero_add,
    rows_eq_stretch, List.append_assoc, show i + (k + 1) - (i + 1) = k by omega, ← stretch_succ]
  rfl

/-- One chain replaced: what lies before and behind it is the same. -/
theorem rows_update {β : Type} (b : Nat → List β) {n i : Nat} (hi : i < n) :
    ∃ pre post, rows b n = pre ++ b i ++ post ∧
      ∀ l, rows (Function.update b i l) n = pre ++ l ++ post := by
  refine ⟨_, _, rows_cut b hi, fun l => ?_⟩
  rw [rows_cut _ hi, Function.update_self]
  congr 1
  · congr 1
    exact rows_congr fun j hj => Function.update_of_ne (Nat.ne_of_lt hj) ..
  · exact stretch_congr fun j hj _ => Function.update_of_ne (Nat.ne_of_gt hj) ..

/-- If no address is there twice, it is not there twice in a row. -/
theorem nodup_rows {b : Nat → List (Addr × α)} {n i : Nat} (h : (addrs (rows b n)).Nodup)
    (hi : i < n) : (addrs (b i)).Nodup := by
  rw [addrs, rows, List.map_flatMap, List.nodup_flatMap] at h
  exact h.1 i (List.mem_range.mpr hi)

/-- Two chains of a row have no cell in common. -/
theorem rows_apart {b : Nat → List (Addr × α)} {n i j : Nat} (h : (addrs (rows b n)).Nodup)
    (hi : i < n) (hj : j < n) (hne : i ≠ j) {a : Addr} (ha : a ∈ addrs (b i)) :
    a ∉ addrs (b j) := by
  rw [addrs, rows, List.map_flatMap, List.nodup_flatMap] at h
  have hpair := List.pairwise_iff_getElem.mp h.2
  intro hb
  rcases Nat.lt_or_gt_of_ne hne with hlt | hlt
  · have hdis := hpair i j (by simpa using hi) (by simpa using hj) hlt
    simp only [List.getElem_range] at hdis
    exact hdis ha hb
  · have hdis := hpair j i (by simpa using hj) (by simpa using hi) hlt
    simp only [List.getElem_range] at hdis
    exact hdis hb ha

/-- The slots of `table` point to the chains `b`. -/
def Row (h : Heap (Node α)) (table : List Ptr) (b : Nat → List (Addr × α)) : Prop :=
  ∀ i p, table[i]? = some p → Chain h p (b i)

/-- A slot gets another chain, and the other slots keep theirs. -/
theorem Row.set {table : List Ptr} {b : Nat → List (Addr × α)} {i : Nat}
    (hrow : ∀ j p, j ≠ i → table[j]? = some p → Chain h p (b j)) (hchain : Chain h p l) :
    Row h (table.set i p) (Function.update b i l) := by
  intro j q hq
  rw [List.getElem?_set] at hq
  by_cases hij : i = j
  · subst hij
    rw [if_pos rfl] at hq
    split at hq
    · cases hq
      rwa [Function.update_self]
    · cases hq
  · rw [if_neg hij] at hq
    rw [Function.update_of_ne (Ne.symm hij)]
    exact hrow j q (Ne.symm hij) hq

/-- **Frame.** -/
theorem Row.congr {table : List Ptr} {b : Nat → List (Addr × α)} (hrow : Row h table b)
    (hcells : ∀ a ∈ addrs (rows b table.length), h'.cells a = h.cells a) : Row h' table b := by
  intro i p hp
  refine (hrow i p hp).congr fun a ha => hcells a ?_
  obtain ⟨x, hx, rfl⟩ := List.mem_map.mp ha
  have hi : i < table.length := (List.getElem?_eq_some_iff.mp hp).1
  exact mem_addrs (mem_rows.mpr ⟨i, hi, hx⟩)

/-! ### Dealing out -/

section Dealt

variable {β : Type} {f : β → Nat} {b c : Nat → List β} {n j : Nat}

/-- The last row stands at the end. -/
theorem rows_succ (b : Nat → List β) (n : Nat) : rows b (n + 1) = rows b n ++ b n := by
  rw [rows, List.range_succ, List.flatMap_append, List.flatMap_singleton, rows]

/-- To filter the rows is to filter each of them. -/
theorem filter_rows (p : β → Bool) (b : Nat → List β) (n : Nat) :
    (rows b n).filter p = rows (fun i => (b i).filter p) n := List.filter_flatMap ..

/-- All of a row is in one place. -/
theorem rows_eq_of_forall_ne (hj : j < n) (h : ∀ i, i ≠ j → b i = []) : rows b n = b j := by
  obtain ⟨pre, post, hrows, hupdate⟩ := rows_update b hj
  have hempty : rows (Function.update b j []) n = [] := by
    refine List.flatMap_eq_nil_iff.mpr fun i _ => ?_
    by_cases hij : i = j
    · rw [hij, Function.update_self]
    · rw [Function.update_of_ne hij, h i hij]
  rw [hupdate] at hempty
  simp only [List.append_eq_nil_iff] at hempty
  obtain ⟨⟨rfl, -⟩, rfl⟩ := hempty
  rw [hrows, List.nil_append, List.append_nil]

/-- Each entry of the list goes to the head of the place that `f` gives it. -/
def dealt (f : β → Nat) (l : List β) (c : Nat → List β) (j : Nat) : List β :=
  (l.filter fun x => f x == j).reverse ++ c j

@[simp] theorem dealt_nil (f : β → Nat) (c : Nat → List β) : dealt f [] c = c := rfl

theorem dealt_cons (f : β → Nat) (x : β) (l : List β) (c : Nat → List β) :
    dealt f (x :: l) c = dealt f l (Function.update c (f x) (x :: c (f x))) := by
  funext j
  by_cases hj : f x = j
  · subst hj
    rw [dealt, List.filter_cons_of_pos (p := fun y => f y == f x) (beq_self_eq_true _),
      List.reverse_cons, List.append_assoc, dealt, Function.update_self]
    rfl
  · rw [dealt, List.filter_cons_of_neg (by simpa using hj), dealt,
      Function.update_of_ne (Ne.symm hj)]

/-- Dealing goes on where it has stopped. -/
theorem dealt_append (f : β → Nat) (l l' : List β) (c : Nat → List β) :
    dealt f (l ++ l') c = dealt f l' (dealt f l c) := by
  induction l generalizing c with
  | nil => rfl
  | cons x l ih => rw [List.cons_append, dealt_cons, ih, dealt_cons]

/-- To push onto a row is to add to the rows. -/
theorem rows_push_perm (hj : j < n) (x : β) :
    (rows (Function.update c j (x :: c j)) n).Perm (x :: rows c n) := by
  obtain ⟨pre, post, hrows, hupdate⟩ := rows_update c hj
  rw [hupdate, hrows, List.append_assoc, List.append_assoc]
  exact List.perm_middle

/-- Nothing is lost. -/
theorem rows_dealt_perm {l : List β} (h : ∀ x ∈ l, f x < n) :
    (rows (dealt f l c) n).Perm (l ++ rows c n) := by
  induction l generalizing c with
  | nil => rfl
  | cons x l ih =>
    rw [dealt_cons]
    refine (ih fun y hy => h y (List.mem_cons_of_mem _ hy)).trans ?_
    refine (List.Perm.append_left l (rows_push_perm (h x List.mem_cons_self) x)).trans ?_
    exact List.perm_middle

/-- Entries that all go to one place come to lie there in the opposite order. -/
theorem filter_rows_dealt {l : List β} {p : β → Bool} (hj : j < n)
    (hp : ∀ x ∈ l, p x = true → f x = j) :
    (rows (dealt f l fun _ => []) n).filter p = l.reverse.filter p := by
  have hplace : ∀ i, (dealt f l (fun _ => []) i).filter p =
      (l.filter fun x => p x && f x == i).reverse := by
    intro i
    rw [dealt, List.append_nil, List.filter_reverse, List.filter_filter]
  rw [filter_rows, rows_eq_of_forall_ne hj, hplace, List.filter_reverse]
  · congr 1
    refine List.filter_congr fun x hx => ?_
    cases hpx : p x with
    | true => simp [hp x hx hpx]
    | false => rfl
  · intro i hi
    rw [hplace, List.reverse_eq_nil_iff, List.filter_eq_nil_iff]
    intro x hx hpi
    obtain ⟨hpx, hfx⟩ := Bool.and_eq_true_iff.mp hpi
    exact hi ((beq_iff_eq.mp hfx).symm.trans (hp x hx hpx))

end Dealt

end SimpleHttp.Lib
