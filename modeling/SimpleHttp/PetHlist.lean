import SimpleHttp.Lib.Heap
import SimpleHttp.Lib.Hooks
import SimpleHttp.PetList

namespace SimpleHttp.PetHlist

open Lib PetList

/-!
# The lists with a single pointer list head of `pet_list.h`

* `HlistHead`, `HlistNode`, `Memory` — heads, and the nodes that are linked; a `pprev` is the
  address of a slot.
* `hlistAddHead`, `hlistAddBefore`, `hlistAddAfter`, `hlistDel`, `hlistDelInit` — the edits, write by
  write; `hlistUnhashed`, `hlistEmpty` — the tests.
* `hooks` — the memory as `Hooks`; each edit is one hook or two.
* `hlistAddHead_hangs` to `hlistDelInit_hangs` — what each edit does to the list it works on.
-/

/-- The address of a head's `first` or of a node's `next`. -/
abbrev SlotAddr := Slot Addr Addr

/-- What a `struct hlist_node **` holds. -/
inductive SlotPointer where
  | null
  | to (s : SlotAddr)
  | poison2   -- `LIST_POISON2`
  deriving DecidableEq, Repr

/-- `struct hlist_head`. -/
structure HlistHead where
  first : Pointer
  deriving DecidableEq, Repr

/-- `struct hlist_node`. -/
structure HlistNode where
  next : Pointer
  pprev : SlotPointer
  deriving DecidableEq, Repr

/-- The heads and the nodes of a program. -/
structure Memory where
  heads : Heap HlistHead
  nodes : Heap HlistNode

/-- The node behind a pointer. -/
def deref (m : Memory) : Pointer → Except Fault (Addr × HlistNode)
  | .null => .error .null
  | .poison1 => .error .poison
  | .poison2 => .error .poison
  | .to a =>
      match m.nodes.cells a with
      | none => .error (.dangling a)
      | some c => .ok (a, c)

/-- `n->next`. -/
def nextOf (m : Memory) (n : Pointer) : Except Fault Pointer := do
  let (_, c) ← deref m n
  pure c.next

/-- `n->pprev`. -/
def pprevOf (m : Memory) (n : Pointer) : Except Fault SlotPointer := do
  let (_, c) ← deref m n
  pure c.pprev

/-- `n->next = q`. -/
def setNext (m : Memory) (n q : Pointer) : Except Fault Memory := do
  let (a, c) ← deref m n
  pure { m with nodes := m.nodes.write a { c with next := q } }

/-- `n->pprev = s`. -/
def setPprev (m : Memory) (n : Pointer) (s : SlotPointer) : Except Fault Memory := do
  let (a, c) ← deref m n
  pure { m with nodes := m.nodes.write a { c with pprev := s } }

/-- `h->first`. -/
def firstOf (m : Memory) (h : Addr) : Except Fault Pointer :=
  match m.heads.cells h with
  | none => .error (.dangling h)
  | some c => .ok c.first

/-- `h->first = q`. -/
def setFirst (m : Memory) (h : Addr) (q : Pointer) : Except Fault Memory :=
  match m.heads.cells h with
  | none => .error (.dangling h)
  | some _ => .ok { m with heads := m.heads.write h ⟨q⟩ }

/-- `*s = q`. -/
def store (m : Memory) (s : SlotPointer) (q : Pointer) : Except Fault Memory :=
  match s with
  | .null => .error .null
  | .poison2 => .error .poison
  | .to (.first h) => setFirst m h q
  | .to (.next a) => setNext m (.to a) q

/-! ### The functions -/

/-- `INIT_HLIST_HEAD`. -/
def initHlistHead (m : Memory) (ptr : Addr) : Except Fault Memory := setFirst m ptr .null

/-- `INIT_HLIST_NODE`. -/
def initHlistNode (m : Memory) (h : Pointer) : Except Fault Memory := do
  let m ← setNext m h .null
  setPprev m h .null

/-- `hlist_node_init`. -/
def hlistNodeInit (m : Memory) (h : Pointer) : Except Fault Memory := initHlistNode m h

/-- `hlist_unhashed`. -/
def hlistUnhashed (m : Memory) (h : Pointer) : Except Fault Bool := do
  pure (decide ((← pprevOf m h) = .null))

/-- `hlist_empty`. -/
def hlistEmpty (m : Memory) (h : Addr) : Except Fault Bool := do
  pure (decide ((← firstOf m h) = .null))

/-- `if (n) n->pprev = s`. -/
def pointBack (m : Memory) (n : Pointer) (s : SlotAddr) : Except Fault Memory :=
  if n = .null then pure m else setPprev m n (.to s)

/-- `__hlist_del`. -/
def Internal.hlistDel (m : Memory) (n : Pointer) : Except Fault Memory := do
  let next ← nextOf m n
  let pprev ← pprevOf m n
  let m ← store m pprev next
  if next = .null then pure m else setPprev m next pprev

/-- `hlist_del`: taken out and poisoned. -/
def hlistDel (m : Memory) (n : Pointer) : Except Fault Memory := do
  let m ← Internal.hlistDel m n
  let m ← setNext m n .poison1
  setPprev m n .poison2

/-- `hlist_del_init`: taken out, if it is in a list, and ready for another. -/
def hlistDelInit (m : Memory) (n : Pointer) : Except Fault Memory := do
  if !(← hlistUnhashed m n) then
    let m ← Internal.hlistDel m n
    initHlistNode m n
  else pure m

/-- `hlist_add_head`. -/
def hlistAddHead (m : Memory) (n h : Addr) : Except Fault Memory := do
  let first ← firstOf m h
  let m ← setNext m (.to n) first
  let m ← pointBack m first (.next n)
  let m ← setFirst m h (.to n)
  setPprev m (.to n) (.to (.first h))

/-- `hlist_add_before`. -/
def hlistAddBefore (m : Memory) (n next : Addr) : Except Fault Memory := do
  let m ← setPprev m (.to n) (← pprevOf m (.to next))
  let m ← setNext m (.to n) (.to next)
  let m ← setPprev m (.to next) (.to (.next n))
  store m (← pprevOf m (.to n)) (.to n)

/-- `next` is put behind `n`. -/
def hlistAddAfter (m : Memory) (n next : Addr) : Except Fault Memory := do
  let m ← setNext m (.to next) (← nextOf m (.to n))
  let m ← setNext m (.to n) (.to next)
  let m ← setPprev m (.to next) (.to (.next n))
  pointBack m (← nextOf m (.to next)) (.next next)

/-! ### The memory as hooks -/

/-- `NULL`, or the object a pointer leads to. -/
def target? : Pointer → Option (Option Addr)
  | .null => some none
  | .to a => some (some a)
  | _ => none

/-- The slot a back pointer leads to. -/
def SlotPointer.slot? : SlotPointer → Option SlotAddr
  | .to s => some s
  | _ => none

/-- The pointer to an object, or `NULL`. -/
def pointer : Option Addr → Pointer
  | none => .null
  | some a => .to a

/-- The memory as slots that point to nodes, and nodes that point back. -/
def hooks (m : Memory) : Hooks Addr Addr where
  target
    | .first h => (m.heads.cells h).bind fun c => target? c.first
    | .next a => (m.nodes.cells a).bind fun c => target? c.next
  slot a := (m.nodes.cells a).bind fun c => c.pprev.slot?

/-- The same heads and nodes, only those written whose slots are in `touched`. -/
structure Edited (m m' : Memory) (touched : List SlotAddr) : Prop where
  nodes_eq : ∀ a, .next a ∉ touched → m'.nodes.cells a = m.nodes.cells a
  heads_eq : ∀ h, .first h ∉ touched → m'.heads.cells h = m.heads.cells h
  live_heads : ∀ h, m'.heads.Live h ↔ m.heads.Live h
  live_nodes : ∀ a, m'.nodes.Live a ↔ m.nodes.Live a

/-- And in the end the memory is linked as `k` says. -/
structure Rehooked (m m' : Memory) (touched : List SlotAddr) (k : Hooks Addr Addr) : Prop extends
    Edited m m' touched where
  hooks_eq : hooks m' = k

variable {m m' m'' : Memory} {touched touched' : List SlotAddr} {k k' : Hooks Addr Addr}

theorem Edited.refl (m : Memory) (touched : List SlotAddr) : Edited m m touched :=
  ⟨fun _ _ => rfl, fun _ _ => rfl, fun _ => Iff.rfl, fun _ => Iff.rfl⟩

theorem Edited.trans (h : Edited m m' touched) (h' : Edited m' m'' touched') :
    Edited m m'' (touched ++ touched') where
  nodes_eq a ha := by
    rw [List.mem_append, not_or] at ha
    rw [h'.nodes_eq a ha.2, h.nodes_eq a ha.1]
  heads_eq a ha := by
    rw [List.mem_append, not_or] at ha
    rw [h'.heads_eq a ha.2, h.heads_eq a ha.1]
  live_heads a := (h'.live_heads a).trans (h.live_heads a)
  live_nodes a := (h'.live_nodes a).trans (h.live_nodes a)

theorem Edited.mono (h : Edited m m' touched) (hsub : touched ⊆ touched') :
    Edited m m' touched' :=
  { h with
    nodes_eq := fun a ha => h.nodes_eq a fun hin => ha (hsub hin)
    heads_eq := fun a ha => h.heads_eq a fun hin => ha (hsub hin) }

/-- A slot's contents are the pointer to what it points to. -/
theorem target?_eq_iff {p : Pointer} {b : Option Addr} : target? p = some b ↔ p = pointer b := by
  cases b <;> cases p <;> simp [target?, pointer]

/-- A pointer to a node points to it. -/
@[simp] theorem target?_pointer (b : Option Addr) : target? (pointer b) = some b := by
  cases b <;> rfl

theorem slot?_eq_iff {p : SlotPointer} {s : SlotAddr} : p.slot? = some s ↔ p = .to s := by
  cases p <;> simp [SlotPointer.slot?]

/-- A pointer to a node can be followed. -/
theorem deref_eq {a : Addr} {c : HlistNode} (h : m.nodes.cells a = some c) :
    deref m (.to a) = .ok (a, c) := by
  simp only [deref, h]

/-- A slot that holds something can be read. -/
theorem nextOf_eq {a : Addr} {b : Option Addr} (h : (hooks m).target (.next a) = some b) :
    m.nodes.Live a ∧ nextOf m (.to a) = .ok (pointer b) := by
  obtain ⟨c, hc, hb⟩ := Option.bind_eq_some_iff.mp h
  refine ⟨Heap.live_iff.mpr ⟨c, hc⟩, ?_⟩
  simp only [nextOf, deref_eq hc, ok_bind, pure_ok, target?_eq_iff.mp hb]

/-- `h->first`. -/
theorem firstOf_eq {h : Addr} {b : Option Addr} (hb : (hooks m).target (.first h) = some b) :
    m.heads.Live h ∧ firstOf m h = .ok (pointer b) := by
  obtain ⟨c, hc, hb⟩ := Option.bind_eq_some_iff.mp hb
  refine ⟨Heap.live_iff.mpr ⟨c, hc⟩, ?_⟩
  rw [firstOf, hc, ← target?_eq_iff.mp hb]

/-- The head points to the first node of its list. -/
theorem firstOf_hangs {h : Addr} {l : List Addr} (hl : Hangs (hooks m) (.first h) l) :
    m.heads.Live h ∧ firstOf m h = .ok (pointer l.head?) := firstOf_eq hl.target_slot

/-- `n->pprev`. -/
theorem pprevOf_eq {a : Addr} {s : SlotAddr} (h : (hooks m).slot a = some s) :
    m.nodes.Live a ∧ pprevOf m (.to a) = .ok (.to s) := by
  obtain ⟨c, hc, hs⟩ := Option.bind_eq_some_iff.mp h
  refine ⟨Heap.live_iff.mpr ⟨c, hc⟩, ?_⟩
  simp only [pprevOf, deref_eq hc, ok_bind, pure_ok, slot?_eq_iff.mp hs]

/-! ### The writes -/

/-- What writing a node does to the hooks. -/
theorem rehooked_write {a : Addr} {c : HlistNode} (hc : m.nodes.cells a = some c) (c' : HlistNode) :
    Rehooked m { m with nodes := m.nodes.write a c' } [.next a]
      ⟨Function.update (hooks m).target (.next a) (target? c'.next),
        Function.update (hooks m).slot a c'.pprev.slot?⟩ where
  nodes_eq b hb := by
    have hne : b ≠ a := fun heq => hb (List.mem_singleton.mpr (congrArg Slot.next heq))
    exact Heap.cells_write_of_ne _ hne _
  heads_eq _ _ := rfl
  live_heads _ := Iff.rfl
  live_nodes b := Heap.live_write ..
  hooks_eq := by
    rw [hooks, Hooks.mk.injEq]
    constructor
    · ext t : 1
      by_cases ht : t = .next a
      · subst ht
        rw [Function.update_self]
        show ((m.nodes.write a c').cells a).bind _ = _
        rw [Heap.cells_write_self hc, Option.bind_some]
      · rw [Function.update_of_ne ht]
        cases t with
        | first h => rfl
        | next b =>
          have hne : b ≠ a := fun heq => ht (congrArg Slot.next heq)
          show ((m.nodes.write a c').cells b).bind _ = _
          rw [Heap.cells_write_of_ne _ hne]
          rfl
    · ext b : 1
      by_cases hb : b = a
      · subst hb
        rw [Function.update_self, Heap.cells_write_self hc, Option.bind_some]
      · rw [Function.update_of_ne hb, Heap.cells_write_of_ne _ hb]
        rfl

/-- `n->next = q`. -/
theorem setNext_eq {a : Addr} {c : HlistNode} (hc : m.nodes.cells a = some c) (q : Pointer) :
    setNext m (.to a) q = .ok { m with nodes := m.nodes.write a { c with next := q } } := by
  simp only [setNext, deref_eq hc, ok_bind, pure_ok]

/-- `n->pprev = s`. -/
theorem setPprev_eq {a : Addr} {c : HlistNode} (hc : m.nodes.cells a = some c) (s : SlotPointer) :
    setPprev m (.to a) s = .ok { m with nodes := m.nodes.write a { c with pprev := s } } := by
  simp only [setPprev, deref_eq hc, ok_bind, pure_ok]

/-- A node's slot is pointed at another node. -/
theorem setNext_rehooks {a : Addr} (h : m.nodes.Live a) (b : Option Addr) :
    ∃ m', setNext m (.to a) (pointer b) = .ok m' ∧
      Rehooked m m' [.next a] ((hooks m).point (.next a) b) := by
  obtain ⟨c, hc⟩ := Heap.live_iff.mp h
  refine ⟨_, setNext_eq hc _, ?_⟩
  have hwrite := rehooked_write hc { c with next := pointer b }
  have hslot : c.pprev.slot? = (hooks m).slot a := by
    show _ = (m.nodes.cells a).bind _
    rw [hc, Option.bind_some]
  rwa [target?_pointer, hslot, Function.update_eq_self] at hwrite

/-- A node is pointed back to a slot. -/
theorem setPprev_rehooks {a : Addr} (h : m.nodes.Live a) (s : SlotAddr) :
    ∃ m', setPprev m (.to a) (.to s) = .ok m' ∧
      Rehooked m m' [.next a] ((hooks m).back (some a) s) := by
  obtain ⟨c, hc⟩ := Heap.live_iff.mp h
  refine ⟨_, setPprev_eq hc _, ?_⟩
  have hwrite := rehooked_write hc { c with pprev := .to s }
  have htarget : target? c.next = (hooks m).target (.next a) := by
    show _ = (m.nodes.cells a).bind _
    rw [hc, Option.bind_some]
  rwa [htarget, Function.update_eq_self] at hwrite

/-- `if (p) p->pprev = s`. -/
theorem pointBack_rehooks {b : Option Addr} (h : ∀ a, b = some a → m.nodes.Live a) (s : SlotAddr) :
    ∃ m', pointBack m (pointer b) s = .ok m' ∧
      Rehooked m m' (b.toList.map .next) ((hooks m).back b s) := by
  cases b with
  | none => exact ⟨m, rfl, Edited.refl .., rfl⟩
  | some a => exact setPprev_rehooks (h a rfl) s

/-- A head's slot is pointed at another node. -/
theorem setFirst_rehooks {h : Addr} (hh : m.heads.Live h) (b : Option Addr) :
    ∃ m', setFirst m h (pointer b) = .ok m' ∧
      Rehooked m m' [.first h] ((hooks m).point (.first h) b) := by
  obtain ⟨c, hc⟩ := Heap.live_iff.mp hh
  refine ⟨{ m with heads := m.heads.write h ⟨pointer b⟩ }, by simp only [setFirst, hc],
    ⟨fun _ _ => rfl, fun g hg => ?_, fun a => Heap.live_write .., fun _ => Iff.rfl⟩, ?_⟩
  · have hne : g ≠ h := fun heq => hg (List.mem_singleton.mpr (congrArg Slot.first heq))
    exact Heap.cells_write_of_ne _ hne _
  rw [hooks, Hooks.point, Hooks.mk.injEq]
  refine ⟨?_, rfl⟩
  ext t : 1
  by_cases ht : t = .first h
  · subst ht
    rw [Function.update_self]
    show ((m.heads.write h ⟨pointer b⟩).cells h).bind _ = _
    rw [Heap.cells_write_self hc, Option.bind_some, target?_pointer]
  · rw [Function.update_of_ne ht]
    cases t with
    | next b => rfl
    | first g =>
      have hne : g ≠ h := fun heq => ht (congrArg Slot.first heq)
      show ((m.heads.write h ⟨pointer b⟩).cells g).bind _ = _
      rw [Heap.cells_write_of_ne _ hne]
      rfl

/-- `*pprev = q`, wherever the slot is. -/
theorem store_rehooks {s : SlotAddr} {b₀ : Option Addr} (h : (hooks m).target s = some b₀)
    (b : Option Addr) :
    ∃ m', store m (.to s) (pointer b) = .ok m' ∧ Rehooked m m' [s] ((hooks m).point s b) := by
  cases s with
  | first g => exact setFirst_rehooks (firstOf_eq h).1 b
  | next a => exact setNext_rehooks (nextOf_eq h).1 b

/-! ### The edits -/

section Edits

variable {head n next : Addr} {l l₁ l₂ : List Addr}

/-- The slots of a head and of some nodes. -/
def within (head : Addr) (l : List Addr) : List SlotAddr := .first head :: l.map .next

/-- The last slot of a stretch belongs to the list. -/
theorem endSlot_mem_within (head : Addr) (l₁ l₂ : List Addr) :
    endSlot (.first head) l₁ ∈ within head (l₁ ++ l₂) := by
  rw [within, List.map_append, List.mem_cons, List.mem_append]
  exact (mem_endSlot (.first head) l₁).imp_right Or.inl

theorem next_mem_within {head a : Addr} {l : List Addr} (h : a ∈ l) :
    .next a ∈ within head l := List.mem_cons_of_mem _ (List.mem_map_of_mem h)

theorem toList_subset_within {head : Addr} {b : Option Addr} {l : List Addr}
    (h : ∀ a, b = some a → a ∈ l) : b.toList.map .next ⊆ within head l := by
  cases b with
  | none => simp
  | some a => exact List.cons_subset.mpr ⟨next_mem_within (h a rfl), List.nil_subset _⟩

/-- What hangs is allocated. -/
theorem live_of_hung (h : Hung (hooks m) (.first head) l) : ∀ a ∈ l, m.nodes.Live a := by
  intro a ha
  obtain ⟨l₁, l₂, rfl⟩ := List.append_of_mem ha
  exact (pprevOf_eq h.slot_eq).1

/-- What the node `n` of a list points to. -/
theorem target_next (h : Hangs (hooks m) (.first head) (l₁ ++ n :: l₂)) :
    (hooks m).target (.next n) = some l₂.head? := by
  have hsplit : Hangs (hooks m) (.first head) ((l₁ ++ [n]) ++ l₂) := by simpa using h
  have htarget := hsplit.target_endSlot
  rwa [endSlot_append] at htarget

/-- `__hlist_del` is one hook. -/
theorem Internal.hlistDel_hangs (h : Hangs (hooks m) (.first head) (l₁ ++ n :: l₂)) :
    ∃ m', Internal.hlistDel m (.to n) = .ok m' ∧ Edited m m' (within head (l₁ ++ n :: l₂)) ∧
      Hangs (hooks m') (.first head) (l₁ ++ l₂) := by
  have hnext := target_next h
  have hin : ∀ a, l₂.head? = some a → a ∈ l₁ ++ n :: l₂ := fun a ha =>
    List.mem_append_right _ (List.mem_cons_of_mem _ (List.mem_of_mem_head? ha))
  obtain ⟨m₁, hstore, hr₁⟩ := store_rehooks h.target_endSlot l₂.head?
  obtain ⟨m', hback, hr'⟩ := pointBack_rehooks (m := m₁) (b := l₂.head?)
    (fun a ha => (hr₁.live_nodes a).mpr (live_of_hung h.hung a (hin a ha)))
    (endSlot (.first head) l₁)
  refine ⟨m', ?_, (hr₁.trans hr'.toEdited).mono ?_, ?_⟩
  · rw [Internal.hlistDel, (nextOf_eq hnext).2, ok_bind, (pprevOf_eq h.hung.slot_eq).2, ok_bind,
      hstore, ok_bind]
    exact hback
  · rw [List.append_subset, List.cons_subset]
    exact ⟨⟨endSlot_mem_within .., List.nil_subset _⟩, toList_subset_within hin⟩
  · rw [hr'.hooks_eq, hr₁.hooks_eq]
    exact h.remove h.hung.nodup (by simp)

/-- `hlist_add_head` puts `n` in front. -/
theorem hlistAddHead_hangs (h : Hangs (hooks m) (.first head) l) (hn : m.nodes.Live n)
    (hnl : n ∉ l) :
    ∃ m', hlistAddHead m n head = .ok m' ∧ Edited m m' (within head (n :: l)) ∧
      Hangs (hooks m') (.first head) (n :: l) := by
  obtain ⟨hhead, hfirst⟩ := firstOf_hangs h
  have hin : ∀ a, l.head? = some a → a ∈ l := fun a ha => List.mem_of_mem_head? ha
  obtain ⟨m₁, hrun₁, hr₁⟩ := setNext_rehooks hn l.head?
  obtain ⟨m₂, hrun₂, hr₂⟩ := pointBack_rehooks (m := m₁) (b := l.head?)
    (fun a ha => (hr₁.live_nodes a).mpr (live_of_hung h.hung a (hin a ha))) (.next n)
  have he₂ := hr₁.trans hr₂.toEdited
  obtain ⟨m₃, hrun₃, hr₃⟩ := setFirst_rehooks ((he₂.live_heads head).mpr hhead) (some n)
  have he₃ := he₂.trans hr₃.toEdited
  obtain ⟨m', hrun', hr'⟩ := setPprev_rehooks ((he₃.live_nodes n).mpr hn) (.first head)
  refine ⟨m', ?_, (he₃.trans hr'.toEdited).mono ?_, ?_⟩
  · rw [hlistAddHead, hfirst, ok_bind, hrun₁, ok_bind, hrun₂, ok_bind]
    exact (congrArg (· >>= _) hrun₃).trans hrun'
  · have hn : Slot.next n ∈ within head (n :: l) := next_mem_within List.mem_cons_self
    simp only [List.append_subset, List.cons_subset, List.nil_subset, and_true]
    exact ⟨⟨⟨hn, toList_subset_within fun a ha => List.mem_cons_of_mem _ (hin a ha)⟩,
      List.mem_cons_self⟩, hn⟩
  · rw [hr'.hooks_eq, hr₃.hooks_eq, hr₂.hooks_eq, hr₁.hooks_eq]
    have hnd : ([] ++ n :: l).Nodup := List.nodup_cons.mpr ⟨hnl, h.hung.nodup⟩
    exact Hangs.insert h hnd (by simp)

/-- `hlist_add_before` puts `n` in front of `next`. -/
theorem hlistAddBefore_hangs (h : Hangs (hooks m) (.first head) (l₁ ++ next :: l₂))
    (hn : m.nodes.Live n) (hnl : n ∉ l₁ ++ next :: l₂) :
    ∃ m', hlistAddBefore m n next = .ok m' ∧
      Edited m m' (within head (l₁ ++ n :: next :: l₂)) ∧
      Hangs (hooks m') (.first head) (l₁ ++ n :: next :: l₂) := by
  have hnd : (l₁ ++ n :: next :: l₂).Nodup :=
    (List.perm_middle.nodup_iff).mpr (List.nodup_cons.mpr ⟨hnl, h.hung.nodup⟩)
  have hne : next ≠ n := by
    rintro rfl
    simp at hnl
  have hend : endSlot (.first head) l₁ ≠ .next n :=
    endSlot_ne_next (by simp) fun hin => hnl (List.mem_append_left _ hin)
  obtain ⟨hlive, hpprev⟩ := pprevOf_eq h.hung.slot_eq
  obtain ⟨m₁, hrun₁, hr₁⟩ := setPprev_rehooks hn (endSlot (.first head) l₁)
  obtain ⟨m₂, hrun₂, hr₂⟩ := setNext_rehooks ((hr₁.live_nodes n).mpr hn) (some next)
  have he₂ := hr₁.trans hr₂.toEdited
  obtain ⟨m₃, hrun₃, hr₃⟩ := setPprev_rehooks ((he₂.live_nodes next).mpr hlive) (.next n)
  -- `*(n->pprev)` is where `next` hung before
  have hslot : (hooks m₃).slot n = some (endSlot (.first head) l₁) := by
    rw [hr₃.hooks_eq, slot_back_of_ne _ (by simpa using hne), hr₂.hooks_eq, slot_point,
      hr₁.hooks_eq, slot_back_self]
  have htarget : (hooks m₃).target (endSlot (.first head) l₁) = some (some next) := by
    rw [hr₃.hooks_eq, target_back, hr₂.hooks_eq, target_point_of_ne _ hend, hr₁.hooks_eq,
      target_back]
    exact h.target_endSlot
  obtain ⟨m', hrun', hr'⟩ := store_rehooks htarget (some n)
  refine ⟨m', ?_, ((he₂.trans hr₃.toEdited).trans hr'.toEdited).mono ?_, ?_⟩
  · simp only [hlistAddBefore, hpprev, ok_bind, hrun₁]
    rw [show Pointer.to next = pointer (some next) from rfl, hrun₂, ok_bind]
    simp only [pointer, hrun₃, ok_bind, (pprevOf_eq hslot).2]
    exact hrun'
  · have hn : Slot.next n ∈ within head (l₁ ++ n :: next :: l₂) := next_mem_within (by simp)
    simp only [List.append_subset, List.cons_subset, List.nil_subset, and_true]
    exact ⟨⟨⟨hn, hn⟩, next_mem_within (by simp)⟩, endSlot_mem_within ..⟩
  · -- the four writes are the two hooks of an insertion, in another order
    rw [hr'.hooks_eq, hr₃.hooks_eq, hr₂.hooks_eq, hr₁.hooks_eq,
      ← hook_hook_eq _ (Or.inr (by simpa using hne))]
    exact h.insert hnd (by simp)

/-- `hlist_add_after` puts `next` behind `n`. -/
theorem hlistAddAfter_hangs (h : Hangs (hooks m) (.first head) (l₁ ++ n :: l₂))
    (hx : m.nodes.Live next) (hxl : next ∉ l₁ ++ n :: l₂) :
    ∃ m', hlistAddAfter m n next = .ok m' ∧
      Edited m m' (within head (l₁ ++ n :: next :: l₂)) ∧
      Hangs (hooks m') (.first head) (l₁ ++ n :: next :: l₂) := by
  have hnd : ((l₁ ++ [n]) ++ next :: l₂).Nodup := by
    rw [List.perm_middle.nodup_iff, List.append_assoc, List.singleton_append]
    exact List.nodup_cons.mpr ⟨hxl, h.hung.nodup⟩
  have hne : next ≠ n := by
    rintro rfl
    simp at hxl
  have hin : ∀ a, l₂.head? = some a → a ∈ l₁ ++ n :: l₂ := fun a ha =>
    List.mem_append_right _ (List.mem_cons_of_mem _ (List.mem_of_mem_head? ha))
  have hhead : l₂.head? ≠ some next := fun heq => hxl (hin next heq)
  obtain ⟨hlive, hnext⟩ := nextOf_eq (target_next h)
  obtain ⟨m₁, hrun₁, hr₁⟩ := setNext_rehooks hx l₂.head?
  obtain ⟨m₂, hrun₂, hr₂⟩ := setNext_rehooks ((hr₁.live_nodes n).mpr hlive) (some next)
  have he₂ := hr₁.trans hr₂.toEdited
  obtain ⟨m₃, hrun₃, hr₃⟩ := setPprev_rehooks ((he₂.live_nodes next).mpr hx) (.next n)
  have he₃ := he₂.trans hr₃.toEdited
  -- the test of `next->next` reads what the first line of the code has written
  have htarget : (hooks m₃).target (.next next) = some l₂.head? := by
    rw [hr₃.hooks_eq, target_back, hr₂.hooks_eq, target_point_of_ne _ (by simpa using hne),
      hr₁.hooks_eq]
    exact Function.update_self ..
  obtain ⟨m', hrun', hr'⟩ := pointBack_rehooks (m := m₃) (b := l₂.head?)
    (fun a ha => (he₃.live_nodes a).mpr (live_of_hung h.hung a (hin a ha))) (.next next)
  refine ⟨m', ?_, (he₃.trans hr'.toEdited).mono ?_, ?_⟩
  · simp only [hlistAddAfter, hnext, ok_bind, hrun₁]
    rw [show Pointer.to next = pointer (some next) from rfl, hrun₂, ok_bind]
    simp only [pointer, hrun₃, ok_bind, (nextOf_eq htarget).2]
    exact hrun'
  · have hx : Slot.next next ∈ within head (l₁ ++ n :: next :: l₂) := next_mem_within (by simp)
    have hsub : (l₂.head?.toList.map Slot.next) ⊆ within head (l₁ ++ n :: next :: l₂) := by
      apply toList_subset_within
      intro a ha
      simp [List.mem_of_mem_head? ha]
    simp only [List.append_subset, List.cons_subset, List.nil_subset, and_true]
    exact ⟨⟨⟨hx, next_mem_within (by simp)⟩, hx⟩, hsub⟩
  · -- the four writes are the two hooks of an insertion, in another order
    have hsplit : Hangs (hooks m) (.first head) ((l₁ ++ [n]) ++ l₂) := by simpa using h
    have hins := hsplit.insert hnd (by simp)
    rw [endSlot_append, List.append_assoc] at hins
    rw [hr'.hooks_eq, hr₃.hooks_eq, hr₂.hooks_eq, hr₁.hooks_eq, ← hook_hook_eq' _ (Or.inr hhead)]
    exact hins

/-- A list whose head and nodes are not written stays. -/
theorem hangs_of_edited (h : Hangs (hooks m) (.first head) l) (he : Edited m m' touched)
    (hout : ∀ s ∈ within head l, s ∉ touched) : Hangs (hooks m') (.first head) l := by
  apply h.congr
  · intro t ht
    have hnot : t ∉ touched := hout t (List.mem_cons.mpr ht)
    cases t with
    | first g =>
      show (m'.heads.cells g).bind _ = _
      rw [he.heads_eq g hnot]
      rfl
    | next a =>
      show (m'.nodes.cells a).bind _ = _
      rw [he.nodes_eq a hnot]
      rfl
  · intro a ha
    show (m'.nodes.cells a).bind _ = _
    rw [he.nodes_eq a (hout _ (next_mem_within ha))]
    rfl

/-- `INIT_HLIST_NODE`, and what `hlist_del` does last: a node is overwritten. -/
theorem write_node (hn : m.nodes.Live n) (q : Pointer) (p : SlotPointer) :
    ∃ m', (do setPprev (← setNext m (.to n) q) (.to n) p) = .ok m' ∧ Edited m m' [.next n] ∧
      m'.nodes.cells n = some ⟨q, p⟩ := by
  obtain ⟨c, hc⟩ := Heap.live_iff.mp hn
  have hc' := Heap.cells_write_self hc { c with next := q }
  have he := (rehooked_write hc { c with next := q }).toEdited
  have he' := (rehooked_write (m := { m with nodes := m.nodes.write n { c with next := q } }) hc'
    ⟨q, p⟩).toEdited
  refine ⟨_, ?_, (he.trans he').mono (by simp), Heap.cells_write_self hc' _⟩
  rw [setNext_eq hc, ok_bind]
  exact setPprev_eq (m := { m with nodes := m.nodes.write n { c with next := q } }) hc' p

/-- `hlist_del` and `hlist_del_init`: the node is taken out, and overwritten. -/
theorem hlistDel_write (h : Hangs (hooks m) (.first head) (l₁ ++ n :: l₂)) (q : Pointer)
    (p : SlotPointer) :
    ∃ m' m'', Internal.hlistDel m (.to n) = .ok m' ∧
      (do setPprev (← setNext m' (.to n) q) (.to n) p) = .ok m'' ∧
      Edited m m'' (within head (l₁ ++ n :: l₂)) ∧ Hangs (hooks m'') (.first head) (l₁ ++ l₂) ∧
      m''.nodes.cells n = some ⟨q, p⟩ := by
  have hnd := List.nodup_cons.mp ((List.perm_middle.nodup_iff).mp h.hung.nodup)
  obtain ⟨m', hdel, he, h'⟩ := Internal.hlistDel_hangs h
  have hlive : m'.nodes.Live n := (he.live_nodes n).mpr (live_of_hung h.hung n (by simp))
  obtain ⟨m'', hwrite, he', hcell⟩ := write_node hlive q p
  refine ⟨m', m'', hdel, hwrite, (he.trans he').mono ?_, hangs_of_edited h' he' ?_, hcell⟩
  · rw [List.append_subset, List.cons_subset]
    exact ⟨List.Subset.refl _, next_mem_within (by simp), List.nil_subset _⟩
  · intro s hs hin
    obtain rfl := List.mem_singleton.mp hin
    rcases List.mem_cons.mp hs with heq | hs
    · cases heq
    · obtain ⟨a, ha, heq⟩ := List.mem_map.mp hs
      exact hnd.1 (Slot.next.inj heq ▸ ha)

/-- **Deletion.** -/
theorem hlistDel_hangs (h : Hangs (hooks m) (.first head) (l₁ ++ n :: l₂)) :
    ∃ m', hlistDel m (.to n) = .ok m' ∧ Edited m m' (within head (l₁ ++ n :: l₂)) ∧
      Hangs (hooks m') (.first head) (l₁ ++ l₂) ∧
      m'.nodes.cells n = some ⟨.poison1, .poison2⟩ := by
  obtain ⟨m₁, m', hdel, hwrite, h'⟩ := hlistDel_write h .poison1 .poison2
  refine ⟨m', ?_, h'⟩
  rw [hlistDel, hdel, ok_bind]
  exact hwrite

/-- **Deletion for another use.** -/
theorem hlistDelInit_hangs (h : Hangs (hooks m) (.first head) (l₁ ++ n :: l₂)) :
    ∃ m', hlistDelInit m (.to n) = .ok m' ∧ Edited m m' (within head (l₁ ++ n :: l₂)) ∧
      Hangs (hooks m') (.first head) (l₁ ++ l₂) ∧ m'.nodes.cells n = some ⟨.null, .null⟩ := by
  obtain ⟨m₁, m', hdel, hwrite, h'⟩ := hlistDel_write h .null .null
  refine ⟨m', ?_, h'⟩
  simp only [hlistDelInit, hlistUnhashed, (pprevOf_eq h.hung.slot_eq).2, ok_bind, pure_ok, hdel]
  exact hwrite

/-- A node that is in no list and says so is left alone. -/
theorem hlistDelInit_idle {q : Pointer} (h : m.nodes.cells n = some ⟨q, .null⟩) :
    hlistUnhashed m (.to n) = .ok true ∧ hlistDelInit m (.to n) = .ok m := by
  have hunhashed : hlistUnhashed m (.to n) = .ok true := by
    simp only [hlistUnhashed, pprevOf, deref_eq h, ok_bind, pure_ok]
    rfl
  exact ⟨hunhashed, by rw [hlistDelInit, hunhashed]; rfl⟩

/-- A node in a list is hashed. -/
theorem hlistUnhashed_hung (h : Hung (hooks m) (.first head) l) (hn : n ∈ l) :
    hlistUnhashed m (.to n) = .ok false := by
  obtain ⟨l₁, l₂, rfl⟩ := List.append_of_mem hn
  simp only [hlistUnhashed, (pprevOf_eq h.slot_eq).2, ok_bind, pure_ok]
  rfl

/-- The test of a list. -/
theorem hlistEmpty_hangs (h : Hangs (hooks m) (.first head) l) :
    hlistEmpty m head = .ok (decide (l = [])) := by
  rw [hlistEmpty, (firstOf_hangs h).2, ok_bind, pure_ok]
  cases l <;> rfl

/-- A new head has no nodes. -/
theorem initHlistHead_hangs (hh : m.heads.Live head) :
    ∃ m', initHlistHead m head = .ok m' ∧ Edited m m' [.first head] ∧
      Hangs (hooks m') (.first head) [] := by
  obtain ⟨m', hrun, hr⟩ := setFirst_rehooks hh none
  refine ⟨m', hrun, hr.toEdited, trivial, ?_⟩
  rw [hr.hooks_eq]
  exact Function.update_self ..

end Edits

end SimpleHttp.PetHlist
