import SimpleHttp.Lib.Format
import SimpleHttp.PetListRuns

namespace SimpleHttp.ListExample

open Lib PetList

/-!
# `list_example.c`

* `main` — every argument goes into a list, and one is searched for and deleted.
* `Built` — the invariant of the first loop.
* `main_deletes` — with an index that is there, the argument is printed and taken out of the list;
  with any other index, the program does not come to its error message: it takes the head of the
  list for an entry.
-/

/-- What `struct str_buffer` holds beside its `node`. -/
structure StrBuffer where
  str : Bytes
  idx : Int

/-- The memory of the nodes, and the buffers around them. -/
structure State where
  mem : PetList.Memory
  bufs : Addr → Option StrBuffer

/-- `test_list`. -/
abbrev testList : Addr := 0

/-- `LIST_HEAD(test_list)`. -/
def start : State := ⟨Heap.empty.alloc ⟨.to testList, .to testList⟩, fun _ => none⟩

/-- One turn of the first loop; every `calloc` and `strdup` succeeds. -/
def addBuffer (s : State) (arg : Bytes × Nat) : Except Fault State := do
  let newBuf := s.mem.next
  let mem ← listAddTail (s.mem.alloc ⟨.null, .null⟩) (.to newBuf) (.to testList)
  pure ⟨mem, Function.update s.bufs newBuf (some ⟨cstr arg.1, arg.2⟩)⟩

/-- The buffer around a node, with the node's address; around the head there is none. -/
def bufferOf (s : State) : Pointer → Except Fault (Addr × StrBuffer)
  | .null => .error .null
  | .poison1 => .error .poison
  | .poison2 => .error .poison
  | .to a =>
      match s.bufs a with
      | none => .error (.dangling a)
      | some buf => .ok (a, buf)

/-- `if (buf->idx == index) break;` -/
def search (s : State) (index : Int) : Body Unit := fun m st pos => do
  let (_, buf) ← bufferOf s pos
  pure (m, st, if buf.idx = index then .leave else .next)

/-- What is printed, the value returned and what is left of the list. -/
structure Ending where
  stdout : Bytes
  code : Int
  state : State

/-- `main`, with the line that `readline` returns (it is `readline` that prints the prompt). -/
def main (argv : List Bytes) (indexStr : Bytes) : Except Fault Ending := do
  let title := ascii "Linked List API example\n"
  let s ← ((argv.drop 1).zipIdx 1).foldlM addBuffer start
  let index := atoi indexStr
  let (_, _, pos) ← listForEachEntry (argv.length + 1) s.mem () (.to testList) (search s index)
  if pos = .null then
    pure ⟨title ++ ascii "Error: Could not find string index (" ++ decimal index ++ ascii ")\n",
      -1, s⟩
  else
    let (a, buf) ← bufferOf s pos
    let mem ← listDel s.mem pos
    pure ⟨title ++ ascii "Found string at index (" ++ decimal buf.idx ++ ascii "): " ++ buf.str ++
      ascii "\n", 0, ⟨mem.free a, Function.update s.bufs a none⟩⟩

/-! ### The list of the arguments -/

/-- The heap grows. -/
theorem represents_alloc {m : Memory} {s : Lists} (hs : PetList.Represents m s) (c : ListHead) :
    PetList.Represents (m.alloc c) s where
  ring head l hl := by
    refine (hs.ring head l hl).congr fun a ha => ?_
    obtain ⟨c', hc'⟩ := Heap.live_iff.mp (live_of_ring (hs.ring head l hl) ha)
    have hne : a ≠ m.next := Nat.ne_of_lt (Heap.lt_next hc')
    simp only [links, Heap.cells_alloc_of_ne m hne, and_self]
  nodup := hs.nodup
  apart := hs.apart

/-- An object goes that is in no list. -/
theorem represents_free {m : Memory} {s : Lists} (hs : PetList.Represents m s) {x : Addr}
    (hx : ∀ head l, s head = some l → x ∉ head :: l) : PetList.Represents (m.free x) s where
  ring head l hl := by
    refine (hs.ring head l hl).congr fun a ha => ?_
    have hne : a ≠ x := by
      rintro rfl
      exact hx head l hl ha
    simp only [links, Heap.cells_free_of_ne m hne, and_self]
  nodup := hs.nodup
  apart := hs.apart

/-- The arguments so far are in the list, in their order; the `i`th of them is around the
    object `i`. -/
structure Built (args : List Bytes) (s : State) : Prop where
  next : s.mem.next = args.length + 1
  lists : PetList.Represents s.mem (oneList (List.range' 1 args.length))
  bufs : ∀ i, s.bufs (i + 1) = args[i]?.map fun arg => ⟨cstr arg, ((i + 1 : Nat) : Int)⟩
  head : s.bufs testList = none

/-- Before the first turn. -/
theorem built_start : Built [] start where
  next := rfl
  lists := by
    have hring : (links start.mem).Ring ↑[testList] := by
      rw [Links.ring_cons]
      simp only [List.nil_append, List.isChain_pair]
      exact ⟨rfl, rfl⟩
    constructor
    · intro head l hl
      by_cases hh : head = 0
      · subst hh
        cases hl
        exact hring
      · simp [oneList, hh] at hl
    · intro head l hl
      by_cases hh : head = 0
      · subst hh
        cases hl
        exact List.nodup_singleton 0
      · simp [oneList, hh] at hl
    · intro head l head' l' x hl hl' _ _
      by_cases hh : head = 0 <;> by_cases hh' : head' = 0
      · rw [hh, hh']
      all_goals simp_all [oneList]
  bufs _ := rfl
  head := rfl

/-- One turn. -/
theorem Built.add {args : List Bytes} {s : State} (h : Built args s) (arg : Bytes) :
    ∃ s', addBuffer s (arg, args.length + 1) = .ok s' ∧ Built (args ++ [arg]) s' := by
  have hl : oneList (List.range' 1 args.length) testList = some (List.range' 1 args.length) := rfl
  -- `calloc` returns an address that no entry has
  have hout : s.mem.next ∉ List.range' 1 args.length := by
    rw [h.next, List.mem_range'_1]
    omega
  have hne : s.mem.next ≠ testList := by
    rw [h.next]
    exact Nat.succ_ne_zero _
  have hs := represents_alloc h.lists ⟨.null, .null⟩
  have hunused := oneList_unused hout hne
  have hlive : (s.mem.alloc ⟨.null, .null⟩).Live s.mem.next :=
    Heap.live_iff.mpr ⟨_, Heap.cells_alloc_self ..⟩
  obtain ⟨m', hrun, hring, he⟩ :=
    listAddTail_ring hlive (hs.ring testList _ hl) (hs.nodup_enter hunused hne hl)
  have hs' := hs.enter hunused hne hl he hring (List.perm_append_singleton _ _)
  rw [oneList_enter _ _ hne] at hs'
  refine ⟨_, by rw [addBuffer, hrun]; rfl, ?_, ?_, fun i => ?_, ?_⟩
  · show m'.next = _
    rw [he.next_eq, List.length_append]
    exact congrArg (· + 1) h.next
  · rw [List.length_append, List.length_singleton, List.range'_1_concat, Nat.add_comm 1, ← h.next]
    exact hs'
  · show Function.update s.bufs s.mem.next _ (i + 1) = _
    by_cases hi : i = args.length
    · rw [hi, ← h.next, Function.update_self, List.getElem?_concat_length, h.next]
      rfl
    · have hnext : i + 1 ≠ s.mem.next := by
        rw [h.next]
        exact fun heq => hi (Nat.succ.inj heq)
      rw [Function.update_of_ne hnext, h.bufs]
      congr 1
      rcases Nat.lt_or_gt_of_ne hi with hlt | hgt
      · rw [List.getElem?_append_left hlt]
      · have hlength : (args ++ [arg]).length ≤ i := by
          rw [List.length_append]
          exact hgt
        rw [List.getElem?_eq_none (Nat.le_of_lt hgt), List.getElem?_eq_none hlength]
  · show Function.update s.bufs s.mem.next _ testList = _
    rw [Function.update_of_ne hne.symm]
    exact h.head

/-- **The first loop.** -/
theorem build (args : List Bytes) :
    ∃ s, (args.zipIdx 1).foldlM addBuffer start = .ok s ∧ Built args s := by
  apply run_zipIdx
  · intro done arg s _ h
    rw [Nat.add_comm]
    exact h.add arg
  · exact built_start

/-- **The second loop.**  It stops at the buffer with the index, or at the head. -/
theorem Built.search_eq {args : List Bytes} {s : State} (h : Built args s) (index : Int)
    {fuel : Nat} (hfuel : args.length < fuel) :
    listForEachEntry fuel s.mem () (.to testList) (search s index) =
      .ok (s.mem, (),
        ((List.range' 1 args.length).find? fun i : Nat => decide ((i : Int) = index)).elim
          (.to testList) .to) := by
  have hring := h.lists.ring testList (List.range' 1 args.length) rfl
  have hnd := List.nodup_cons.mp (h.lists.nodup testList (List.range' 1 args.length) rfl)
  have hbody : ∀ i ∈ List.range' 1 args.length, search s index s.mem () (.to i) =
      .ok (s.mem, (), if decide ((i : Int) = index) then .leave else .next) := by
    intro i hi
    obtain ⟨i, rfl⟩ : ∃ j, i = j + 1 :=
      Nat.exists_eq_succ_of_ne_zero (Nat.ne_of_gt (List.mem_range'_1.mp hi).1)
    have hlt : i < args.length := by
      have hin := (List.mem_range'_1.mp hi).2
      omega
    have hbuf := h.bufs i
    rw [List.getElem?_eq_getElem hlt, Option.map_some] at hbuf
    simp only [search, bufferOf, hbuf, ok_bind, pure_ok, decide_eq_true_eq]
  rw [listForEachEntry, listForEach, (follows_nextOf s.mem).head hring, ok_bind]
  exact forLoop_search (follows_nextOf s.mem) [] hring hnd.1 _ (search s index) () hbody
    (by rwa [List.length_range'])

/-- `list_del` and `__free_buffer`. -/
theorem Built.delete {args : List Bytes} {s : State} (h : Built args s) {x : Addr}
    (hx : x ∈ List.range' 1 args.length) :
    ∃ mem, listDel s.mem (.to x) = .ok mem ∧
      PetList.Represents (mem.free x) (oneList ((List.range' 1 args.length).erase x)) ∧
      ¬ (mem.free x).Live x := by
  have hnd := h.lists.nodup testList (List.range' 1 args.length) rfl
  have hunlink : (oneList (List.range' 1 args.length)).unlink x =
      oneList ((List.range' 1 args.length).erase x) := by
    funext head
    by_cases hh : head = 0 <;> simp [Lists.unlink, oneList, hh]
  have hin : oneList (List.range' 1 args.length) testList = some (List.range' 1 args.length) := rfl
  have hstep : (oneList (List.range' 1 args.length)).Step (.del x) .done _ := .del hin hx
  obtain ⟨mem', hexec, hs', -⟩ := exec_step h.lists (by simp [Op.enters]) hstep
  rw [hunlink] at hs'
  cases hrun : listDel s.mem (.to x) with
  | error e =>
    rw [Op.exec, hrun] at hexec
    cases hexec
  | ok mem =>
    rw [Op.exec, hrun] at hexec
    cases hexec
    refine ⟨mem', rfl, represents_free hs' fun head l hl => ?_, by simp [Heap.Live]⟩
    by_cases hh : head = 0
    · obtain rfl : (List.range' 1 args.length).erase x = l := by simpa [oneList, hh] using hl
      subst hh
      have hx0 : x ≠ 0 := Nat.ne_of_gt (List.mem_range'_1.mp hx).1
      rw [List.mem_cons, not_or]
      exact ⟨hx0, (List.nodup_cons.mp hnd).2.not_mem_erase⟩
    · simp [oneList, hh] at hl

/-- **The example.**  With the index of an argument, the argument is printed and what is left is the
    list of the others; its buffer is freed.  With any other index the error message is not
    printed: what is read next lies outside of every buffer. -/
theorem main_deletes (prog : Bytes) (args : List Bytes) (indexStr : Bytes) :
    (∀ i arg, atoi indexStr = ((i + 1 : Nat) : Int) → args[i]? = some arg →
      ∃ s, main (prog :: args) indexStr =
          .ok ⟨ascii "Linked List API example\n" ++ ascii "Found string at index (" ++
            decimal (atoi indexStr) ++ ascii "): " ++ cstr arg ++ ascii "\n", 0, s⟩ ∧
        PetList.Represents s.mem (oneList ((List.range' 1 args.length).erase (i + 1))) ∧
        ¬ s.mem.Live (i + 1)) ∧
    (¬ (1 ≤ atoi indexStr ∧ atoi indexStr ≤ args.length) →
      main (prog :: args) indexStr = .error (.dangling testList)) := by
  obtain ⟨s, hbuild, h⟩ := build args
  have hloop : listForEachEntry ((prog :: args).length + 1) s.mem () (.to testList)
      (search s (atoi indexStr)) = _ :=
    h.search_eq (atoi indexStr) (Nat.lt_succ_of_lt (Nat.lt_succ_self _))
  constructor
  · intro i arg hindex harg
    have hlt : i < args.length := (List.getElem?_eq_some_iff.mp harg).1
    have hmem : i + 1 ∈ List.range' 1 args.length := by
      rw [List.mem_range'_1]
      omega
    -- the first node with the index is the only one
    have hfind : (List.range' 1 args.length).find?
        (fun j : Nat => decide ((j : Int) = atoi indexStr)) = some (i + 1) := by
      rw [List.find?_range'_eq_some]
      refine ⟨decide_eq_true hindex.symm, hmem, fun j hj hji => ?_⟩
      simp only [Bool.not_eq_true', decide_eq_false_iff_not]
      omega
    rw [hfind, hindex] at hloop
    have hbuf : bufferOf s (.to (i + 1)) = .ok (i + 1, ⟨cstr arg, ((i + 1 : Nat) : Int)⟩) := by
      have hbufs := h.bufs i
      rw [harg, Option.map_some] at hbufs
      simp only [bufferOf, hbufs]
    obtain ⟨mem, hdel, hlists, hfree⟩ := h.delete hmem
    refine ⟨⟨mem.free (i + 1), Function.update s.bufs (i + 1) none⟩, ?_, hlists, hfree⟩
    have hne : Pointer.to (i + 1) ≠ .null := by simp
    simp only [main, List.drop_one, List.tail_cons, hbuild, ok_bind, hloop, Option.elim_some,
      if_neg hne, hbuf, hdel, pure_ok, hindex, List.append_assoc]
  · intro hno
    have hnone : (List.range' 1 args.length).find?
        (fun j : Nat => decide ((j : Int) = atoi indexStr)) = none := by
      rw [List.find?_range'_eq_none]
      intro j hj hlt
      simp only [Bool.not_eq_true', decide_eq_false_iff_not]
      omega
    rw [hnone] at hloop
    have hne : Pointer.to testList ≠ .null := by simp
    -- the loop has ended at the head, and `buf` is not NULL
    have hbuf : bufferOf s (.to testList) = .error (.dangling testList) := by
      simp only [bufferOf, h.head]
    simp only [main, List.drop_one, List.tail_cons, hbuild, ok_bind, hloop, Option.elim_none,
      if_neg hne, hbuf, error_bind]

/-- The second of two arguments. -/
theorem main_deletes_second :
    (∃ s, main [ascii "list_example", ascii "ab", ascii "cd"] (ascii "2") =
        .ok ⟨ascii "Linked List API example\nFound string at index (2): cd\n", 0, s⟩ ∧
      PetList.Represents s.mem (oneList [1])) ∧
    main [ascii "list_example", ascii "ab", ascii "cd"] (ascii "3") =
      .error (.dangling testList) := by
  constructor
  · obtain ⟨s, hrun, hlists, -⟩ := (main_deletes (ascii "list_example")
      [ascii "ab", ascii "cd"] (ascii "2")).1 1 (ascii "cd") (by decide) rfl
    refine ⟨s, hrun.trans ?_, hlists⟩
    congr 2
  · exact (main_deletes (ascii "list_example") [ascii "ab", ascii "cd"] (ascii "3")).2 (by decide)

end SimpleHttp.ListExample
