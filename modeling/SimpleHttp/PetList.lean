import SimpleHttp.Lib.Heap
import SimpleHttp.Lib.Rings

namespace SimpleHttp.PetList

open Lib

/-!
# The doubly linked lists of `pet_list.h`

* `ListHead`, `Pointer`, `Memory` — the objects that are linked, and what their pointers may hold.
  An entry is known by the address of its `list_head`, so `list_entry` is the identity here.
* `listAdd`, `listAddTail`, `listDel`, `listDelInit`, `listMove`, `listMoveTail`, `listSplice`,
  `listSpliceInit` — the edits, write by write; `Internal` holds the functions of the source that
  start with two underscores.
* `listEmpty`, `listEmptyCareful` — the tests.
* `links` — the memory as `Links`; each edit joins two or three pairs of them.
-/

/-- What a pointer to a `list_head` holds. -/
inductive Pointer where
  | null
  | to (a : Addr)
  | poison1   -- `LIST_POISON1`
  | poison2   -- `LIST_POISON2`
  deriving DecidableEq, Repr

/-- `struct list_head`. -/
structure ListHead where
  next : Pointer
  prev : Pointer
  deriving DecidableEq, Repr

/-- The list heads of a program; a head and an entry are the same structure. -/
abbrev Memory := Heap ListHead

/-- How following a pointer goes wrong, or a loop runs on. -/
inductive Fault where
  | null
  | poison
  | dangling (a : Addr)
  | outOfFuel
  deriving DecidableEq, Repr

/-- The object behind a pointer. -/
def deref (m : Memory) : Pointer → Except Fault (Addr × ListHead)
  | .null => .error .null
  | .poison1 => .error .poison
  | .poison2 => .error .poison
  | .to a =>
      match m.cells a with
      | none => .error (.dangling a)
      | some c => .ok (a, c)

/-- `p->next`. -/
def nextOf (m : Memory) (p : Pointer) : Except Fault Pointer := do
  let (_, c) ← deref m p
  pure c.next

/-- `p->prev`. -/
def prevOf (m : Memory) (p : Pointer) : Except Fault Pointer := do
  let (_, c) ← deref m p
  pure c.prev

/-- `p->next = q`. -/
def setNext (m : Memory) (p q : Pointer) : Except Fault Memory := do
  let (a, c) ← deref m p
  pure (m.write a { c with next := q })

/-- `p->prev = q`. -/
def setPrev (m : Memory) (p q : Pointer) : Except Fault Memory := do
  let (a, c) ← deref m p
  pure (m.write a { c with prev := q })

/-! ### The functions -/

/-- `INIT_LIST_HEAD`. -/
def initListHead (m : Memory) (list : Pointer) : Except Fault Memory := do
  let m ← setNext m list list
  setPrev m list list

/-- `list_head_init`. -/
def listHeadInit (m : Memory) (list : Pointer) : Except Fault Memory := initListHead m list

/-- `__list_add`. -/
def Internal.listAdd (m : Memory) (newNode prev next : Pointer) : Except Fault Memory := do
  let m ← setPrev m next newNode
  let m ← setNext m newNode next
  let m ← setPrev m newNode prev
  setNext m prev newNode

/-- `list_add`: behind the head. -/
def listAdd (m : Memory) (newNode head : Pointer) : Except Fault Memory := do
  Internal.listAdd m newNode head (← nextOf m head)

/-- `list_add_tail`: in front of the head, which is the end of the list. -/
def listAddTail (m : Memory) (newNode head : Pointer) : Except Fault Memory := do
  Internal.listAdd m newNode (← prevOf m head) head

/-- `__list_del`. -/
def Internal.listDel (m : Memory) (prev next : Pointer) : Except Fault Memory := do
  let m ← setPrev m next prev
  setNext m prev next

/-- `list_del`: taken out and poisoned. -/
def listDel (m : Memory) (entry : Pointer) : Except Fault Memory := do
  let m ← Internal.listDel m (← prevOf m entry) (← nextOf m entry)
  let m ← setNext m entry .poison1
  setPrev m entry .poison2

/-- `list_del_init`: taken out, and the head of an empty list. -/
def listDelInit (m : Memory) (entry : Pointer) : Except Fault Memory := do
  let m ← Internal.listDel m (← prevOf m entry) (← nextOf m entry)
  initListHead m entry

/-- `list_move`. -/
def listMove (m : Memory) (list head : Pointer) : Except Fault Memory := do
  let m ← Internal.listDel m (← prevOf m list) (← nextOf m list)
  listAdd m list head

/-- `list_move_tail`. -/
def listMoveTail (m : Memory) (list head : Pointer) : Except Fault Memory := do
  let m ← Internal.listDel m (← prevOf m list) (← nextOf m list)
  listAddTail m list head

/-- `list_empty`. -/
def listEmpty (m : Memory) (head : Pointer) : Except Fault Bool := do
  pure (decide ((← nextOf m head) = head))

/-- `list_empty_careful`. -/
def listEmptyCareful (m : Memory) (head : Pointer) : Except Fault Bool := do
  let next ← nextOf m head
  -- `&&` does not look at `head->prev` when the first test fails
  if next = head then pure (decide (next = (← prevOf m head))) else pure false

/-- `__list_splice`. -/
def Internal.listSplice (m : Memory) (list head : Pointer) : Except Fault Memory := do
  let first ← nextOf m list
  let last ← prevOf m list
  let at' ← nextOf m head
  let m ← setPrev m first head
  let m ← setNext m head first
  let m ← setNext m last at'
  setPrev m at' last

/-- `list_splice`; `list` itself is not written. -/
def listSplice (m : Memory) (list head : Pointer) : Except Fault Memory := do
  if !(← listEmpty m list) then Internal.listSplice m list head else pure m

/-- `list_splice_init`. -/
def listSpliceInit (m : Memory) (list head : Pointer) : Except Fault Memory := do
  if !(← listEmpty m list) then
    let m ← Internal.listSplice m list head
    initListHead m list
  else pure m

/-- `list_first_entry`. -/
def listFirstEntry (m : Memory) (ptr : Pointer) : Except Fault Pointer := nextOf m ptr

/-! ### The memory as links -/

/-- The object a pointer leads to. -/
def Pointer.addr? : Pointer → Option Addr
  | .to a => some a
  | _ => none

/-- The memory as successors and predecessors. -/
def links (m : Memory) : Links Addr where
  succ a := (m.cells a).bind fun c => c.next.addr?
  pred a := (m.cells a).bind fun c => c.prev.addr?

/-- The same objects, and only those at `touched` written. -/
structure Edited (m m' : Memory) (touched : List Addr) : Prop where
  cells_eq : ∀ a, a ∉ touched → m'.cells a = m.cells a
  live_iff : ∀ a, m'.Live a ↔ m.Live a
  next_eq : m'.next = m.next

/-- An edit behind which the memory is linked as `k` says. -/
structure Relinked (m m' : Memory) (touched : List Addr) (k : Links Addr) : Prop
    extends Edited m m' touched where
  links_eq : links m' = k

theorem Edited.refl (m : Memory) (touched : List Addr) : Edited m m touched :=
  ⟨fun _ _ => rfl, fun _ => Iff.rfl, rfl⟩

theorem Edited.trans {m m' m'' : Memory} {l l' : List Addr} (h : Edited m m' l)
    (h' : Edited m' m'' l') : Edited m m'' (l ++ l') := by
  refine ⟨fun a ha => ?_, fun a => (h'.live_iff a).trans (h.live_iff a),
    h'.next_eq.trans h.next_eq⟩
  rw [List.mem_append, not_or] at ha
  rw [h'.cells_eq a ha.2, h.cells_eq a ha.1]

theorem Edited.mono {m m' : Memory} {l l' : List Addr} (h : Edited m m' l) (hsub : l ⊆ l') :
    Edited m m' l' :=
  ⟨fun a ha => h.cells_eq a fun hin => ha (hsub hin), h.live_iff, h.next_eq⟩

/-- A ring through no object that is written stays. -/
theorem Edited.ring {m m' : Memory} {touched : List Addr} (h : Edited m m' touched)
    {c : Cycle Addr} (hc : (links m).Ring c) (hout : ∀ a ∈ touched, a ∉ c) :
    (links m').Ring c := by
  refine hc.congr fun a ha => ?_
  have hcell := h.cells_eq a fun hin => hout a hin ha
  simp only [links, hcell, and_self]

theorem Relinked.trans {m m' m'' : Memory} {l l' : List Addr} {k k' : Links Addr}
    (h : Relinked m m' l k) (h' : Relinked m' m'' l' k') : Relinked m m'' (l ++ l') k' :=
  ⟨h.toEdited.trans h'.toEdited, h'.links_eq⟩

/-- The object a pointer leads to, if it leads to one. -/
theorem addr?_eq_some_iff {p : Pointer} {a : Addr} : p.addr? = some a ↔ p = .to a := by
  cases p <;> simp [Pointer.addr?]

/-- A pointer to an object can be followed. -/
theorem deref_eq {m : Memory} {a : Addr} {c : ListHead} (h : m.cells a = some c) :
    deref m (.to a) = .ok (a, c) := by
  simp only [deref, h]

/-- `p->next`. -/
theorem nextOf_eq {m : Memory} {a b : Addr} (h : (links m).succ a = some b) :
    nextOf m (.to a) = .ok (.to b) := by
  obtain ⟨c, hc, hb⟩ := Option.bind_eq_some_iff.mp h
  rw [addr?_eq_some_iff] at hb
  simp only [nextOf, deref_eq hc, ok_bind, pure_ok, hb]

/-- `p->prev`. -/
theorem prevOf_eq {m : Memory} {a b : Addr} (h : (links m).pred a = some b) :
    prevOf m (.to a) = .ok (.to b) := by
  obtain ⟨c, hc, hb⟩ := Option.bind_eq_some_iff.mp h
  rw [addr?_eq_some_iff] at hb
  simp only [prevOf, deref_eq hc, ok_bind, pure_ok, hb]

/-- What has a successor is allocated. -/
theorem live_of_succ {m : Memory} {a b : Addr} (h : (links m).succ a = some b) : m.Live a := by
  obtain ⟨c, hc, -⟩ := Option.bind_eq_some_iff.mp h
  exact Heap.live_iff.mpr ⟨c, hc⟩

theorem live_of_pred {m : Memory} {a b : Addr} (h : (links m).pred a = some b) : m.Live a := by
  obtain ⟨c, hc, -⟩ := Option.bind_eq_some_iff.mp h
  exact Heap.live_iff.mpr ⟨c, hc⟩

/-- The links behind a write. -/
theorem links_write {m : Memory} {a : Addr} {c : ListHead} (hc : m.cells a = some c)
    (c' : ListHead) :
    links (m.write a c') =
      { succ := Function.update (links m).succ a c'.next.addr?
        pred := Function.update (links m).pred a c'.prev.addr? } := by
  have hcells : (m.write a c').cells = Function.update m.cells a (some c') := by
    simp only [Heap.write, hc, Option.map_some]
  simp only [links, hcells]
  congr 1 <;> funext b <;> by_cases hba : b = a <;> simp [Function.update, hba]

/-- A write touches one object. -/
theorem edited_write (m : Memory) (a : Addr) (c : ListHead) : Edited m (m.write a c) [a] :=
  ⟨fun b hb => Heap.cells_write_of_ne m (by simpa using hb) c, by simp, rfl⟩

/-- The write of a successor. -/
theorem setNext_eq {m : Memory} {a : Addr} (h : m.Live a) (q : Pointer) :
    ∃ m', setNext m (.to a) q = .ok m' ∧ Relinked m m' [a]
      { succ := Function.update (links m).succ a q.addr?, pred := (links m).pred } := by
  obtain ⟨c, hc⟩ := Heap.live_iff.mp h
  have hpred : (links m).pred a = c.prev.addr? := by simp only [links, hc, Option.bind_some]
  refine ⟨m.write a { c with next := q }, by rw [setNext, deref_eq hc]; rfl, edited_write .., ?_⟩
  rw [links_write hc, ← hpred, Function.update_eq_self]

/-- The write of a predecessor. -/
theorem setPrev_eq {m : Memory} {a : Addr} (h : m.Live a) (q : Pointer) :
    ∃ m', setPrev m (.to a) q = .ok m' ∧ Relinked m m' [a]
      { succ := (links m).succ, pred := Function.update (links m).pred a q.addr? } := by
  obtain ⟨c, hc⟩ := Heap.live_iff.mp h
  have hsucc : (links m).succ a = c.next.addr? := by simp only [links, hc, Option.bind_some]
  refine ⟨m.write a { c with prev := q }, by rw [setPrev, deref_eq hc]; rfl, edited_write .., ?_⟩
  rw [links_write hc, ← hsucc, Function.update_eq_self]

/-! ### What each edit joins -/

/-- An object is joined to itself. -/
theorem initListHead_eq {m : Memory} {x : Addr} (hx : m.Live x) :
    ∃ m', initListHead m (.to x) = .ok m' ∧ Relinked m m' [x, x] ((links m).join x x) := by
  obtain ⟨m₁, h₁, r₁⟩ := setNext_eq hx (.to x)
  obtain ⟨m₂, h₂, r₂⟩ := setPrev_eq ((r₁.live_iff x).mpr hx) (.to x)
  refine ⟨m₂, by rw [initListHead, h₁, ok_bind, h₂], ?_⟩
  rw [r₁.links_eq] at r₂
  exact r₁.trans r₂

/-- The new object is joined to both sides. -/
theorem Internal.listAdd_eq {m : Memory} {x p n : Addr} (hx : m.Live x) (hp : m.Live p)
    (hn : m.Live n) :
    ∃ m', Internal.listAdd m (.to x) (.to p) (.to n) = .ok m' ∧
      Relinked m m' [n, x, x, p] (((links m).join x n).join p x) := by
  obtain ⟨m₁, h₁, r₁⟩ := setPrev_eq hn (.to x)
  obtain ⟨m₂, h₂, r₂⟩ := setNext_eq ((r₁.live_iff x).mpr hx) (.to n)
  have r₁₂ := r₁.trans r₂
  obtain ⟨m₃, h₃, r₃⟩ := setPrev_eq ((r₁₂.live_iff x).mpr hx) (.to p)
  have r₁₃ := r₁₂.trans r₃
  obtain ⟨m₄, h₄, r₄⟩ := setNext_eq ((r₁₃.live_iff p).mpr hp) (.to x)
  refine ⟨m₄, by simp only [Internal.listAdd, h₁, h₂, h₃, h₄, ok_bind], ?_⟩
  rw [r₃.links_eq, r₂.links_eq, r₁.links_eq] at r₄
  exact r₁₃.trans r₄

/-- `__list_del` joins its two arguments. -/
theorem Internal.listDel_eq {m : Memory} {p n : Addr} (hp : m.Live p) (hn : m.Live n) :
    ∃ m', Internal.listDel m (.to p) (.to n) = .ok m' ∧
      Relinked m m' [n, p] ((links m).join p n) := by
  obtain ⟨m₁, h₁, r₁⟩ := setPrev_eq hn (.to p)
  obtain ⟨m₂, h₂, r₂⟩ := setNext_eq ((r₁.live_iff p).mpr hp) (.to n)
  refine ⟨m₂, by rw [Internal.listDel, h₁, ok_bind, h₂], ?_⟩
  rw [r₁.links_eq] at r₂
  exact r₁.trans r₂

/-- Behind `list_del`, the object has no links. -/
theorem poison_eq {m : Memory} {x : Addr} (hx : m.Live x) :
    ∃ m', (do let m ← setNext m (.to x) .poison1; setPrev m (.to x) .poison2) = .ok m' ∧
      Relinked m m' [x, x] ((links m).cut x) := by
  obtain ⟨m₁, h₁, r₁⟩ := setNext_eq hx .poison1
  obtain ⟨m₂, h₂, r₂⟩ := setPrev_eq ((r₁.live_iff x).mpr hx) .poison2
  refine ⟨m₂, by rw [h₁, ok_bind, h₂], ?_⟩
  rw [r₁.links_eq] at r₂
  exact r₁.trans r₂

/-- `__list_splice` joins both ends of the one list into the other. -/
theorem Internal.listSplice_eq {m : Memory} {list head f t n : Addr} (hf : (links m).succ list = some f)
    (ht : (links m).pred list = some t) (hn : (links m).succ head = some n) (hlf : m.Live f)
    (hlt : m.Live t) (hln : m.Live n) :
    ∃ m', Internal.listSplice m (.to list) (.to head) = .ok m' ∧
      Relinked m m' [f, head, t, n] (((links m).join head f).join t n) := by
  obtain ⟨m₁, h₁, r₁⟩ := setPrev_eq hlf (.to head)
  obtain ⟨m₂, h₂, r₂⟩ := setNext_eq ((r₁.live_iff head).mpr (live_of_succ hn)) (.to f)
  have r₁₂ := r₁.trans r₂
  obtain ⟨m₃, h₃, r₃⟩ := setNext_eq ((r₁₂.live_iff t).mpr hlt) (.to n)
  have r₁₃ := r₁₂.trans r₃
  obtain ⟨m₄, h₄, r₄⟩ := setPrev_eq ((r₁₃.live_iff n).mpr hln) (.to t)
  refine ⟨m₄, by simp only [Internal.listSplice, nextOf_eq hf, prevOf_eq ht, nextOf_eq hn, h₁, h₂,
    h₃, h₄, ok_bind], ?_⟩
  rw [r₃.links_eq, r₂.links_eq, r₁.links_eq] at r₄
  exact r₁₃.trans r₄

/-! ### What each edit does to the rings -/

/-- What is in a ring is allocated. -/
theorem live_of_ring {m : Memory} {x : Addr} {l : List Addr} (h : (links m).Ring ↑l)
    (hx : x ∈ l) : m.Live x := by
  obtain ⟨y, -, hy⟩ := h.exists_succ hx
  exact live_of_succ hy

/-- A new head is an empty list. -/
theorem initListHead_ring {m : Memory} {x : Addr} (hx : m.Live x) :
    ∃ m', initListHead m (.to x) = .ok m' ∧ (links m').Ring ↑[x] ∧ Edited m m' [x] := by
  obtain ⟨m', h, r⟩ := initListHead_eq hx
  refine ⟨m', h, ?_, r.toEdited.mono (by simp)⟩
  rw [r.links_eq]
  exact Links.ring_join_self _ x

/-- **Adding** behind the head. -/
theorem listAdd_ring {m : Memory} {x head : Addr} {l : List Addr} (hx : m.Live x)
    (h : (links m).Ring ↑(head :: l)) (hnd : (head :: x :: l).Nodup) :
    ∃ m', listAdd m (.to x) (.to head) = .ok m' ∧ (links m').Ring ↑(head :: x :: l) ∧
      Edited m m' (head :: x :: l) := by
  obtain ⟨n, hn, hsucc⟩ := h.exists_succ List.mem_cons_self
  obtain ⟨m', hrun, r⟩ := Internal.listAdd_eq hx (live_of_succ hsucc) (live_of_ring h hn)
  refine ⟨m', by rw [listAdd, nextOf_eq hsucc, ok_bind, hrun], ?_, r.toEdited.mono ?_⟩
  · rw [r.links_eq]
    exact h.insert_after hnd hsucc
  · intro a ha
    simp only [List.mem_cons, List.not_mem_nil, or_false] at ha hn ⊢
    rcases ha with rfl | rfl | rfl | rfl <;> tauto

/-- **Adding** at the end. -/
theorem listAddTail_ring {m : Memory} {x head : Addr} {l : List Addr} (hx : m.Live x)
    (h : (links m).Ring ↑(head :: l)) (hnd : (head :: x :: l).Nodup) :
    ∃ m', listAddTail m (.to x) (.to head) = .ok m' ∧ (links m').Ring ↑(head :: (l ++ [x])) ∧
      Edited m m' (head :: x :: l) := by
  obtain ⟨p, hp, hpred⟩ := h.exists_pred List.mem_cons_self
  obtain ⟨m', hrun, r⟩ := Internal.listAdd_eq hx (live_of_ring h hp) (live_of_pred hpred)
  refine ⟨m', by rw [listAddTail, prevOf_eq hpred, ok_bind, hrun], ?_, r.toEdited.mono ?_⟩
  · rw [r.links_eq]
    exact h.insert_before hnd hpred
  · intro a ha
    simp only [List.mem_cons, List.not_mem_nil, or_false] at ha hp ⊢
    rcases ha with rfl | rfl | rfl | rfl <;> tauto

/-- The edit that all of `list_del`, `list_del_init` and the two moves start with. -/
theorem unlink_ring {m : Memory} {x : Addr} {l : List Addr} (h : (links m).Ring ↑(x :: l))
    (hl : l ≠ []) (hnd : (x :: l).Nodup) :
    ∃ p n m', prevOf m (.to x) = .ok p ∧ nextOf m (.to x) = .ok n ∧
      Internal.listDel m p n = .ok m' ∧ (links m').Ring ↑l ∧ Edited m m' (x :: l) := by
  obtain ⟨n, hn, hsucc⟩ := h.exists_succ List.mem_cons_self
  obtain ⟨p, hp, hpred⟩ := h.exists_pred List.mem_cons_self
  obtain ⟨m', hrun, r⟩ := Internal.listDel_eq (live_of_ring h hp) (live_of_ring h hn)
  refine ⟨.to p, .to n, m', prevOf_eq hpred, nextOf_eq hsucc, hrun, ?_, r.toEdited.mono ?_⟩
  · rw [r.links_eq]
    exact h.remove (List.nodup_cons.mp hnd).2 hl hpred hsucc
  · intro a ha
    simp only [List.mem_cons, List.not_mem_nil, or_false] at ha
    rcases ha with rfl | rfl
    · exact hn
    · exact hp

/-- **Deletion.** -/
theorem listDel_ring {m : Memory} {x : Addr} {l : List Addr} (h : (links m).Ring ↑(x :: l))
    (hl : l ≠ []) (hnd : (x :: l).Nodup) :
    ∃ m', listDel m (.to x) = .ok m' ∧ (links m').Ring ↑l ∧
      m'.cells x = some ⟨.poison1, .poison2⟩ ∧ Edited m m' (x :: l) := by
  obtain ⟨p, n, m₁, hp, hn, h₁, hring, e₁⟩ := unlink_ring h hl hnd
  obtain ⟨c, hc⟩ := Heap.live_iff.mp ((e₁.live_iff x).mpr (live_of_ring h List.mem_cons_self))
  obtain ⟨m', h', r⟩ := poison_eq ((e₁.live_iff x).mpr (live_of_ring h List.mem_cons_self))
  have hrun : listDel m (.to x) = .ok m' := by
    simp only [listDel, hp, hn, h₁, ok_bind]
    exact h'
  have hcell : m'.cells x = some ⟨.poison1, .poison2⟩ := by
    simp only [setNext, setPrev, deref_eq hc, ok_bind, pure_ok,
      deref_eq (Heap.cells_write_self hc _), Except.ok.injEq] at h'
    rw [← h', Heap.cells_write_self (Heap.cells_write_self hc _)]
  refine ⟨m', hrun, r.toEdited.ring hring ?_, hcell, (e₁.trans r.toEdited).mono (by simp)⟩
  intro a ha
  obtain rfl : a = x := by simpa using ha
  rw [Cycle.mem_coe_iff]
  exact (List.nodup_cons.mp hnd).1

/-- The test of a list. -/
theorem listEmpty_ring {m : Memory} {head : Addr} {l : List Addr}
    (h : (links m).Ring ↑(head :: l)) (hnd : (head :: l).Nodup) :
    listEmpty m (.to head) = .ok (decide (l = [])) := by
  obtain ⟨n, -, hsucc⟩ := h.exists_succ List.mem_cons_self
  rw [listEmpty, nextOf_eq hsucc, ok_bind, pure_ok]
  rw [h.succ_eq] at hsucc
  cases l with
  | nil =>
    obtain rfl : head = n := by simpa using hsucc
    simp
  | cons b l =>
    obtain rfl : b = n := by simpa using hsucc
    have hne : b ≠ head := fun heq => (List.nodup_cons.mp hnd).1 (heq ▸ List.mem_cons_self)
    simp [hne]

/-- On a list the careful test finds what the plain one finds. -/
theorem listEmptyCareful_ring {m : Memory} {head : Addr} {l : List Addr}
    (h : (links m).Ring ↑(head :: l)) (hnd : (head :: l).Nodup) :
    listEmptyCareful m (.to head) = .ok (decide (l = [])) := by
  have hempty := listEmpty_ring h hnd
  obtain ⟨n, -, hsucc⟩ := h.exists_succ List.mem_cons_self
  obtain ⟨p, -, hpred⟩ := h.exists_pred List.mem_cons_self
  rw [listEmpty, nextOf_eq hsucc, ok_bind, pure_ok, Except.ok.injEq] at hempty
  rw [listEmptyCareful, nextOf_eq hsucc, ok_bind]
  by_cases hn : Pointer.to n = .to head
  · -- the first test holds, so the list is empty and `prev` leads back as well
    have hl : l = [] := by simpa [hn] using hempty
    subst hl
    obtain rfl : head = p := by
      rw [h.pred_eq] at hpred
      simpa using hpred
    rw [if_pos hn, prevOf_eq hpred, ok_bind, pure_ok]
    simp [hn]
  · rw [if_neg hn, pure_ok, ← hempty]
    simp [hn]

/-- **Splicing.** -/
theorem Internal.listSplice_ring {m : Memory} {list head : Addr} {l xs : List Addr}
    (hlist : (links m).Ring ↑(list :: xs)) (hhead : (links m).Ring ↑(head :: l)) (hxs : xs ≠ [])
    (hnd : (head :: l ++ list :: xs).Nodup) :
    ∃ m', Internal.listSplice m (.to list) (.to head) = .ok m' ∧
      (links m').Ring ↑(head :: (xs ++ l)) ∧ Edited m m' (head :: l ++ list :: xs) := by
  obtain ⟨f, hf, hsucc⟩ := hlist.exists_succ List.mem_cons_self
  obtain ⟨t, ht, hpred⟩ := hlist.exists_pred List.mem_cons_self
  obtain ⟨n, hn, hnext⟩ := hhead.exists_succ List.mem_cons_self
  obtain ⟨m', hrun, r⟩ := Internal.listSplice_eq hsucc hpred hnext (live_of_ring hlist hf)
    (live_of_ring hlist ht) (live_of_ring hhead hn)
  refine ⟨m', hrun, ?_, r.toEdited.mono ?_⟩
  · rw [r.links_eq]
    exact hhead.splice hlist hnd hxs hnext hsucc hpred
  · intro a ha
    simp only [List.mem_cons, List.not_mem_nil, or_false] at ha
    rcases ha with rfl | rfl | rfl | rfl
    · exact List.mem_append_right _ hf
    · exact List.mem_append_left _ List.mem_cons_self
    · exact List.mem_append_right _ ht
    · exact List.mem_append_left _ hn

end SimpleHttp.PetList
