import SimpleHttp.Lib.Runs
import SimpleHttp.PetHlist
import SimpleHttp.PetListRuns

namespace SimpleHttp.PetHlist

open Lib PetList

/-!
# The iteration macros of the single pointer lists, and programs over them

* `forLoop`, `safeLoop` — the two shapes of loop; both end at `NULL`.
* `hlist_traversals`, `hlistForEachSafe_sweeps` — a traversal, and deletion in a safe loop.
* `hlistForEach_delIf_iff` — in a plain loop, `hlist_del` of the current node is a fault, and
  `hlist_del_init` of it the end of the loop.
* `Lists.Step`, `Represents`, `runHlistOps_refines` — the operations of a whole program.
-/

variable {σ : Type}

/-- What a loop does at `pos`; `σ` is the rest of the program's state. -/
abbrev Body (σ : Type) := Memory → σ → Pointer → Except Fault (Memory × σ × Flow)

/-- `for (pos = …; pos && ({ prefetch(pos->next); 1; }); pos = pos->next)`, from `pos` on. -/
def forLoop (body : Body σ) :
    Nat → Memory → σ → Pointer → Except Fault (Memory × σ × Pointer)
  | 0, _, _, _ => .error .outOfFuel
  | fuel + 1, m, s, pos =>
      if pos = .null then pure (m, s, pos)
      else do
        let _ ← nextOf m pos
        let (m, s, flow) ← body m s pos
        match flow with
        | .leave => pure (m, s, pos)
        | .next => forLoop body fuel m s (← nextOf m pos)

/-- `for (pos = …; pos && ({ n = pos->next; 1; }); pos = n)`, from `pos` on. -/
def safeLoop (body : Body σ) :
    Nat → Memory → σ → Pointer → Except Fault (Memory × σ × Pointer)
  | 0, _, _, _ => .error .outOfFuel
  | fuel + 1, m, s, pos =>
      if pos = .null then pure (m, s, pos)
      else do
        let n ← nextOf m pos
        let (m, s, flow) ← body m s pos
        match flow with
        | .leave => pure (m, s, pos)
        | .next => safeLoop body fuel m s n

/-! ### The macros -/

section Macros

variable (fuel : Nat) (m : Memory) (s : σ) (pos : Pointer) (head : Addr) (body : Body σ)

/-- `hlist_for_each`. -/
def hlistForEach : Except Fault (Memory × σ × Pointer) := do
  forLoop body fuel m s (← firstOf m head)

/-- `hlist_for_each_safe`. -/
def hlistForEachSafe : Except Fault (Memory × σ × Pointer) := do
  safeLoop body fuel m s (← firstOf m head)

/-- `hlist_for_each_entry`. -/
def hlistForEachEntry : Except Fault (Memory × σ × Pointer) := hlistForEach fuel m s head body

/-- `hlist_for_each_entry_continue`. -/
def hlistForEachEntryContinue : Except Fault (Memory × σ × Pointer) := do
  forLoop body fuel m s (← nextOf m pos)

/-- `hlist_for_each_entry_from`. -/
def hlistForEachEntryFrom : Except Fault (Memory × σ × Pointer) := forLoop body fuel m s pos

/-- `hlist_for_each_entry_safe`. -/
def hlistForEachEntrySafe : Except Fault (Memory × σ × Pointer) :=
  hlistForEachSafe fuel m s head body

end Macros

/-! ### Traversals -/

/-- A body that reads only: it updates the rest of the state by `f`. -/
def tally (f : σ → Pointer → σ) : Body σ := fun m s pos => .ok (m, f s pos, .next)

section Loops

variable {m m' : Memory} {head n : Addr} {l l₁ l₂ : List Addr}

/-- The list behind a node, and the pointer to it. -/
theorem hangs_cons {s : SlotAddr} (h : Hangs (hooks m) s (n :: l)) :
    Hangs (hooks m) (.next n) l ∧ nextOf m (.to n) = .ok (pointer l.head?) := by
  have htail : Hangs (hooks m) (.next n) l := ⟨h.hung.2.2, h.ends⟩
  exact ⟨htail, (nextOf_eq htail.target_slot).2⟩

/-- A body that reads is shown what hangs on a slot, by either loop. -/
theorem loops_tally {slot : SlotAddr} (h : Hangs (hooks m) slot l) (f : σ → Pointer → σ) (s : σ)
    {fuel : Nat} (hfuel : l.length < fuel) :
    forLoop (tally f) fuel m s (pointer l.head?) = .ok (m, tallied f s l, .null) ∧
      safeLoop (tally f) fuel m s (pointer l.head?) = .ok (m, tallied f s l, .null) := by
  induction l generalizing slot s fuel with
  | nil =>
    obtain ⟨fuel, rfl⟩ : ∃ n, fuel = n + 1 := Nat.exists_eq_succ_of_ne_zero (Nat.ne_of_gt hfuel)
    exact ⟨rfl, rfl⟩
  | cons x l ih =>
    obtain ⟨fuel, rfl⟩ : ∃ n, fuel = n + 1 :=
      Nat.exists_eq_succ_of_ne_zero (Nat.ne_of_gt (Nat.zero_lt_of_lt hfuel))
    obtain ⟨htail, hnext⟩ := hangs_cons h
    obtain ⟨hfor, hsafe⟩ := ih htail (f s (.to x)) (Nat.lt_of_succ_lt_succ hfuel)
    have hne : pointer (x :: l).head? ≠ .null := by simp [pointer]
    have hpos : pointer (x :: l).head? = .to x := rfl
    constructor
    · rw [forLoop, if_neg hne, hpos, hnext, ok_bind, tally, ok_bind]
      simp only [hnext, ok_bind]
      exact hfor
    · rw [safeLoop, if_neg hne, hpos, hnext, ok_bind, tally, ok_bind]
      exact hsafe

/-- **Traversals.**  Each loop shows every node of a list to its body once and in order; from a
    node, `_continue` those behind it, and `_from` the node itself first. -/
theorem hlist_traversals (h : Hangs (hooks m) (.first head) (l₁ ++ n :: l₂)) (f : σ → Pointer → σ)
    (s : σ) {fuel : Nat} (hfuel : (l₁ ++ n :: l₂).length < fuel) :
    hlistForEach fuel m s head (tally f) = .ok (m, tallied f s (l₁ ++ n :: l₂), .null) ∧
    hlistForEachSafe fuel m s head (tally f) = .ok (m, tallied f s (l₁ ++ n :: l₂), .null) ∧
    hlistForEachEntry fuel m s head (tally f) = .ok (m, tallied f s (l₁ ++ n :: l₂), .null) ∧
    hlistForEachEntrySafe fuel m s head (tally f) = .ok (m, tallied f s (l₁ ++ n :: l₂), .null) ∧
    hlistForEachEntryContinue fuel m s (.to n) (tally f) = .ok (m, tallied f s l₂, .null) ∧
    hlistForEachEntryFrom fuel m s (.to n) (tally f) = .ok (m, tallied f s (n :: l₂), .null) := by
  have hfirst := (firstOf_hangs h).2
  have hfrom : Hangs (hooks m) (endSlot (.first head) l₁) (n :: l₂) := h.tail
  obtain ⟨hbehind, hnext⟩ := hangs_cons hfrom
  obtain ⟨hfor, hsafe⟩ := loops_tally h f s hfuel
  have hall : hlistForEach fuel m s head (tally f) =
      .ok (m, tallied f s (l₁ ++ n :: l₂), .null) := by
    rw [hlistForEach, hfirst, ok_bind, hfor]
  have hall' : hlistForEachSafe fuel m s head (tally f) =
      .ok (m, tallied f s (l₁ ++ n :: l₂), .null) := by
    rw [hlistForEachSafe, hfirst, ok_bind, hsafe]
  rw [List.length_append, List.length_cons] at hfuel
  -- the entry loops are the loops over the nodes
  refine ⟨hall, hall', hall, hall', ?_,
    (loops_tally hfrom f s (by rw [List.length_cons]; omega)).1⟩
  rw [hlistForEachEntryContinue, hnext, ok_bind]
  exact (loops_tally hbehind f s (by omega)).1

/-! ### Deleting the current node -/

/-- A body that deletes the nodes chosen by `p`. -/
def delIf (del : Memory → Pointer → Except Fault Memory) (p : Pointer → Bool) : Body Unit :=
  fun m s pos => do
    if p pos then
      let m ← del m pos
      pure (m, s, .next)
    else pure (m, s, .next)

/-- `del` takes a node out of its list, and leaves `c` in it. -/
def Deletes (del : Memory → Pointer → Except Fault Memory) (c : HlistNode) : Prop :=
  ∀ m head l₁ n l₂, Hangs (hooks m) (.first head) (l₁ ++ n :: l₂) →
    ∃ m', del m (.to n) = .ok m' ∧ Edited m m' (within head (l₁ ++ n :: l₂)) ∧
      Hangs (hooks m') (.first head) (l₁ ++ l₂) ∧ m'.nodes.cells n = some c

/-- Deletion, with the poison. -/
theorem hlistDel_deletes : Deletes hlistDel ⟨.poison1, .poison2⟩ :=
  fun _ _ _ _ _ h => hlistDel_hangs h

/-- Deletion, with the node cleared. -/
theorem hlistDelInit_deletes : Deletes hlistDelInit ⟨.null, .null⟩ :=
  fun _ _ _ _ _ h => hlistDelInit_hangs h

variable {del : Memory → Pointer → Except Fault Memory} {c : HlistNode} {p : Pointer → Bool}

/-- In a list without repetitions, a node deleted before is not written again. -/
theorem safeLoop_sweeps (hdel : Deletes del c) (p : Pointer → Bool) (done : List Addr)
    (h : Hangs (hooks m) (.first head) (done ++ l)) {fuel : Nat} (hfuel : l.length < fuel) :
    ∃ m', safeLoop (delIf del p) fuel m () (pointer l.head?) = .ok (m', (), .null) ∧
      Edited m m' (within head (done ++ l)) ∧
      Hangs (hooks m') (.first head) (done ++ kept p l) ∧
      ∀ x ∈ l, p (.to x) → m'.nodes.cells x = some c := by
  -- `done` is what the loop has passed and kept; the list hangs together over both
  induction l generalizing m done fuel with
  | nil =>
    obtain ⟨fuel, rfl⟩ : ∃ n, fuel = n + 1 := Nat.exists_eq_succ_of_ne_zero (Nat.ne_of_gt hfuel)
    exact ⟨m, rfl, Edited.refl .., h, by simp⟩
  | cons x l ih =>
    obtain ⟨fuel, rfl⟩ : ∃ n, fuel = n + 1 :=
      Nat.exists_eq_succ_of_ne_zero (Nat.ne_of_gt (Nat.zero_lt_of_lt hfuel))
    have hfuel' := Nat.lt_of_succ_lt_succ hfuel
    have hnext := (hangs_cons h.tail).2
    have hne : pointer (x :: l).head? ≠ .null := by simp [pointer]
    have hpos : pointer (x :: l).head? = .to x := rfl
    have hnd := List.nodup_cons.mp ((List.perm_middle.nodup_iff).mp h.hung.nodup)
    by_cases hp : p (.to x) = true
    · obtain ⟨m₁, hrun, he, h₁, hcell⟩ := hdel m head done x l h
      obtain ⟨m', hloop, he', h', hcells⟩ := ih done h₁ hfuel'
      refine ⟨m', ?_, (he.trans he').mono ?_, by simpa [kept, hp] using h', fun y hy hpy => ?_⟩
      · rw [safeLoop, if_neg hne, hpos, hnext, ok_bind, delIf, if_pos hp, hrun]
        exact hloop
      · intro slot hin
        simp only [within, List.mem_append, List.mem_cons, List.map_append, List.map_cons] at hin ⊢
        tauto
      · rcases List.mem_cons.mp hy with rfl | hy
        · -- deleted now, and not written any more
          rw [he'.nodes_eq y ?_, hcell]
          simp only [within, List.mem_cons, List.mem_map, reduceCtorEq, false_or]
          rintro ⟨z, hz, ⟨⟩⟩
          exact hnd.1 hz
        · exact hcells y hy hpy
    · have hassoc : done ++ x :: l = (done ++ [x]) ++ l := by simp
      rw [hassoc] at h
      obtain ⟨m', hloop, he', h', hcells⟩ := ih (done ++ [x]) h hfuel'
      refine ⟨m', ?_, by rwa [hassoc], by simpa [kept, hp] using h', fun y hy hpy => ?_⟩
      · rw [safeLoop, if_neg hne, hpos, hnext, ok_bind, delIf, if_neg hp]
        exact hloop
      · rcases List.mem_cons.mp hy with rfl | hy
        · exact absurd hpy hp
        · exact hcells y hy hpy

/-- **Safe deletion.**  The safe loop sees every node, and leaves the list of those that the body
    has not chosen. -/
theorem hlistForEachSafe_sweeps (hdel : Deletes del c) (p : Pointer → Bool)
    (h : Hangs (hooks m) (.first head) l) {fuel : Nat} (hfuel : l.length < fuel) :
    ∃ m', hlistForEachSafe fuel m () head (delIf del p) = .ok (m', (), .null) ∧
      Edited m m' (within head l) ∧ Hangs (hooks m') (.first head) (kept p l) ∧
      ∀ x ∈ l, p (.to x) → m'.nodes.cells x = some c := by
  have hfirst := (firstOf_hangs h).2
  obtain ⟨m', hloop, h'⟩ := safeLoop_sweeps hdel p [] h hfuel
  exact ⟨m', by rw [hlistForEachSafe, hfirst, ok_bind]; exact hloop, h'⟩

/-- A plain loop passes the nodes that its body does not choose. -/
theorem forLoop_passes (hno : ∀ x ∈ l₁, p (.to x) = false) {s : SlotAddr}
    (h : Hangs (hooks m) s (l₁ ++ l₂)) (fuel : Nat) :
    forLoop (delIf del p) (fuel + l₁.length) m () (pointer (l₁ ++ l₂).head?) =
      forLoop (delIf del p) fuel m () (pointer l₂.head?) := by
  induction l₁ generalizing s with
  | nil => rfl
  | cons x l₁ ih =>
    obtain ⟨htail, hnext⟩ := hangs_cons h
    have hx : ¬p (.to x) = true := by simp [hno x List.mem_cons_self]
    have hne : Pointer.to x ≠ .null := by simp
    have hrest := ih (fun y hy => hno y (List.mem_cons_of_mem _ hy)) htail
    show forLoop (delIf del p) (fuel + l₁.length + 1) m () (.to x) = _
    rw [forLoop, if_neg hne, hnext, ok_bind, delIf, if_neg hx]
    simp only [ok_bind, pure_ok, hnext]
    exact hrest

/-- At the first chosen node a plain loop goes on from what the deletion has left there. -/
theorem forLoop_deletes (hdel : Deletes del c) (hno : ∀ x ∈ l₁, p (.to x) = false)
    (hp : p (.to n) = true) (h : Hangs (hooks m) (.first head) (l₁ ++ n :: l₂)) (fuel : Nat) :
    ∃ m', Hangs (hooks m') (.first head) (l₁ ++ l₂) ∧
      forLoop (delIf del p) (fuel + 1 + l₁.length) m () (pointer (l₁ ++ n :: l₂).head?) =
        forLoop (delIf del p) fuel m' () c.next := by
  obtain ⟨m', hrun, -, h', hcell⟩ := hdel m head l₁ n l₂ h
  have hnext := (hangs_cons h.tail).2
  have hnext' : nextOf m' (.to n) = .ok c.next := by
    simp only [nextOf, deref_eq hcell, ok_bind, pure_ok]
  have hne : pointer (n :: l₂).head? ≠ .null := by simp [pointer]
  have hpos : pointer (n :: l₂).head? = .to n := rfl
  refine ⟨m', h', ?_⟩
  rw [forLoop_passes hno h, forLoop, if_neg hne, hpos, hnext, ok_bind, delIf, if_pos hp, hrun]
  simp only [ok_bind, pure_ok, hnext']

/-- **Plain deletion.**  With `hlist_del`, a loop that is not the safe one comes to its end exactly
    if its body deletes nothing.  With `hlist_del_init` it comes to its end, but the first deletion
    is the last: what is behind the node is not seen. -/
theorem hlistForEach_delIf_iff (h : Hangs (hooks m) (.first head) l) (p : Pointer → Bool)
    {fuel : Nat} (hfuel : l.length < fuel) :
    ((∃ r, hlistForEach fuel m () head (delIf hlistDel p) = .ok r) ↔
        ∀ x ∈ l, p (.to x) = false) ∧
      ∃ m', hlistForEach fuel m () head (delIf hlistDelInit p) = .ok (m', (), .null) ∧
        Hangs (hooks m') (.first head) (l.eraseP fun x => p (.to x)) := by
  have hfirst := (firstOf_hangs h).2
  have hstart : ∀ del, hlistForEach fuel m () head (delIf del p) =
      forLoop (delIf del p) fuel m () (pointer l.head?) := by
    intro del
    rw [hlistForEach, hfirst]
    rfl
  rw [hstart, hstart]
  by_cases hno : ∀ x ∈ l, p (.to x) = false
  · obtain ⟨k, rfl⟩ : ∃ k, fuel = k + 1 + l.length := ⟨fuel - 1 - l.length, by omega⟩
    have hend : ∀ del, forLoop (delIf del p) (k + 1 + l.length) m () (pointer l.head?) =
        .ok (m, (), .null) := by
      intro del
      have hall : Hangs (hooks m) (.first head) (l ++ []) := by simpa using h
      have hpass : forLoop (delIf del p) _ m () _ = _ := forLoop_passes hno hall (k + 1)
      rw [List.append_nil] at hpass
      exact hpass
    refine ⟨⟨fun _ => hno, fun _ => ⟨_, hend hlistDel⟩⟩, m, hend hlistDelInit, ?_⟩
    rwa [List.eraseP_of_forall_not (by simpa using hno)]
  · simp only [not_forall, Bool.not_eq_false, exists_prop] at hno
    obtain ⟨x, hx, hpx⟩ := hno
    obtain ⟨n, l₁, l₂, hpre, hp, rfl, herase⟩ :=
      List.exists_of_eraseP (p := fun x => p (.to x)) hx hpx
    have hpre' : ∀ y ∈ l₁, p (.to y) = false := fun y hy => by simpa using hpre y hy
    rw [List.length_append, List.length_cons] at hfuel
    obtain ⟨k, rfl⟩ : ∃ k, fuel = k + 1 + 1 + l₁.length := ⟨fuel - 2 - l₁.length, by omega⟩
    refine ⟨⟨?_, fun hno => ?_⟩, ?_⟩
    · rintro ⟨r, hr⟩
      obtain ⟨m', -, hloop⟩ := forLoop_deletes hlistDel_deletes hpre' hp h (k + 1)
      rw [hloop] at hr
      -- the next node would be at `LIST_POISON1`
      cases hr
    · have hfalse := hno n (by simp)
      rw [hp] at hfalse
      cases hfalse
    · obtain ⟨m', h', hloop⟩ := forLoop_deletes hlistDelInit_deletes hpre' hp h (k + 1)
      rw [herase]
      exact ⟨m', hloop, h'⟩

end Loops

/-- A list of three nodes. -/
def threeNodes : Memory where
  heads := Heap.empty.alloc ⟨.to 0⟩
  nodes := ((Heap.empty.alloc ⟨.to 1, .to (.first 0)⟩).alloc ⟨.to 2, .to (.next 0)⟩).alloc
    ⟨.null, .to (.next 1)⟩

/-- The nodes 0, 1 and 2 hang on the head 0 in this order. -/
theorem threeNodes_hangs : Hangs (hooks threeNodes) (.first 0) [0, 1, 2] :=
  ⟨⟨rfl, rfl, rfl, rfl, rfl, rfl, trivial⟩, rfl⟩

/-- Of the nodes 1 and 2, only the node 1 is deleted. -/
theorem hlistForEach_delIf_iff_threeNodes :
    (¬∃ r, hlistForEach 4 threeNodes () 0 (delIf hlistDel (· != .to 0)) = .ok r) ∧
      ∃ m', hlistForEach 4 threeNodes () 0 (delIf hlistDelInit (· != .to 0)) =
        .ok (m', (), .null) ∧ Hangs (hooks m') (.first 0) [0, 2] := by
  have hfuel : [0, 1, 2].length < 4 := by decide
  obtain ⟨hiff, hinit⟩ := hlistForEach_delIf_iff threeNodes_hangs (· != .to 0) hfuel
  refine ⟨?_, hinit⟩
  rw [hiff]
  decide

/-! ### Programs -/

/-- What a program takes its memory for: the nodes behind each head, and the nodes of which it
    knows that they are in no list. -/
structure Lists where
  entries : Addr → Option (List Addr)
  idle : Set Addr

namespace Lists

/-- The list of a head, replaced. -/
def set (s : Lists) (head : Addr) (l : List Addr) : Lists :=
  { s with entries := Function.update s.entries head (some l) }

/-- `n` is in no list. -/
def Out (s : Lists) (n : Addr) : Prop := ∀ head l, s.entries head = some l → n ∉ l

end Lists

/-- The operations of a program, with the addresses they are called on. -/
inductive Op where
  | initHead (h : Addr)
  | initNode (n : Addr)
  | addHead (n h : Addr)
  | addBefore (n next : Addr)
  | addAfter (n next : Addr)
  | del (n : Addr)
  | delInit (n : Addr)
  | empty (h : Addr)
  | unhashed (n : Addr)
  | visit (h : Addr)   -- `hlist_for_each`, noting what is seen
  | sweep (h : Addr) (p : Pointer → Bool)   -- `hlist_for_each_safe`, with `hlist_del`
  | sweepInit (h : Addr) (p : Pointer → Bool)   -- and with `hlist_del_init`

/-- One operation on the memory. -/
def Op.exec (m : Memory) : Op → Except Fault (Memory × Result)
  | .initHead h => do pure (← initHlistHead m h, .done)
  | .initNode n => do pure (← hlistNodeInit m (.to n), .done)
  | .addHead n h => do pure (← hlistAddHead m n h, .done)
  | .addBefore n next => do pure (← hlistAddBefore m n next, .done)
  | .addAfter n next => do pure (← hlistAddAfter m n next, .done)
  | .del n => do pure (← hlistDel m (.to n), .done)
  | .delInit n => do pure (← hlistDelInit m (.to n), .done)
  | .empty h => do pure (m, .flag (← hlistEmpty m h))
  | .unhashed n => do pure (m, .flag (← hlistUnhashed m (.to n)))
  | .visit h => do
      let (m, seen, _) ← hlistForEach (m.nodes.next + 1) m [] h
        (tally fun seen pos => seen ++ [pos])
      pure (m, .seen seen)
  | .sweep h p => do
      let (m, _, _) ← hlistForEachSafe (m.nodes.next + 1) m () h (delIf hlistDel p)
      pure (m, .done)
  | .sweepInit h p => do
      let (m, _, _) ← hlistForEachSafe (m.nodes.next + 1) m () h (delIf hlistDelInit p)
      pure (m, .done)

/-- A program: its memory, and the results of its operations so far. -/
def execOp (s : Memory × List Result) (op : Op) : Except Fault (Memory × List Result) := do
  let (m, r) ← op.exec s.1
  pure (m, s.2 ++ [r])

/-- The objects that an operation may put to a first use are there. -/
def Op.Ready (m : Memory) : Op → Prop
  | .initHead h => m.heads.Live h
  | .initNode n => m.nodes.Live n
  | .addHead n _ => m.nodes.Live n
  | .addBefore n _ => m.nodes.Live n
  | .addAfter _ next => m.nodes.Live next
  | _ => True

/-- An operation on lists whose caller keeps to the contract, and its result. -/
inductive Lists.Step (s : Lists) : Op → Result → Lists → Prop where
  | initHead {h} : Step s (.initHead h) .done (s.set h [])
  | initNode {n} (hn : s.Out n) : Step s (.initNode n) .done { s with idle := insert n s.idle }
  | addHead {n head l} (hn : s.Out n) (hl : s.entries head = some l) :
      Step s (.addHead n head) .done { s.set head (n :: l) with idle := s.idle \ {n} }
  | addBefore {n next head l₁ l₂} (hn : s.Out n) (hl : s.entries head = some (l₁ ++ next :: l₂)) :
      Step s (.addBefore n next) .done
        { s.set head (l₁ ++ n :: next :: l₂) with idle := s.idle \ {n} }
  | addAfter {n next head l₁ l₂} (hn : s.Out next) (hl : s.entries head = some (l₁ ++ n :: l₂)) :
      Step s (.addAfter n next) .done
        { s.set head (l₁ ++ n :: next :: l₂) with idle := s.idle \ {next} }
  | del {n head l₁ l₂} (hl : s.entries head = some (l₁ ++ n :: l₂)) :
      Step s (.del n) .done (s.set head (l₁ ++ l₂))
  | delInit {n head l₁ l₂} (hl : s.entries head = some (l₁ ++ n :: l₂)) :
      Step s (.delInit n) .done { s.set head (l₁ ++ l₂) with idle := insert n s.idle }
  | delInitIdle {n} (hn : n ∈ s.idle) : Step s (.delInit n) .done s
  | empty {head l} (hl : s.entries head = some l) :
      Step s (.empty head) (.flag (decide (l = []))) s
  | unhashed {n} (hn : n ∈ s.idle) : Step s (.unhashed n) (.flag true) s
  | hashed {n head l} (hl : s.entries head = some l) (hn : n ∈ l) :
      Step s (.unhashed n) (.flag false) s
  | visit {head l} (hl : s.entries head = some l) :
      Step s (.visit head) (.seen (l.map .to)) s
  | sweep {head l p} (hl : s.entries head = some l) :
      Step s (.sweep head p) .done (s.set head (kept p l))
  | sweepInit {head l p} (hl : s.entries head = some l) :
      Step s (.sweepInit head p) .done
        { s.set head (kept p l) with idle := s.idle ∪ { x | x ∈ l ∧ p (.to x) } }

/-- A whole program on lists, with its results. -/
inductive Lists.Run : Lists → List Op → List Result → Lists → Prop where
  | nil {s} : Run s [] [] s
  | cons {s m t op ops r rs} (hstep : s.Step op r m) (hrun : Run m ops rs t) :
      Run s (op :: ops) (r :: rs) t

/-! ### The representation -/

/-- That no node is in two lists, or twice in one, need not be said. -/
structure Represents (m : Memory) (s : Lists) : Prop where
  hangs : ∀ head l, s.entries head = some l → Hangs (hooks m) (.first head) l
  idle : ∀ n ∈ s.idle, m.nodes.cells n = some ⟨.null, .null⟩

variable {m m' : Memory} {s t : Lists} {head n : Addr} {l : List Addr}

/-- The nodes of a list are in no other list. -/
theorem Represents.outside (hs : Represents m s) {head' : Addr} {l' : List Addr}
    (hl : s.entries head = some l) (hl' : s.entries head' = some l') (hne : head' ≠ head) :
    ∀ a ∈ l, a ∉ l' :=
  fun _ ha ha' => hne ((hs.hangs head l hl).hung.apart (hs.hangs head' l' hl').hung ha ha').symm

/-- A node that is idle is in no list. -/
theorem Represents.out_of_idle (hs : Represents m s) (hn : n ∈ s.idle) : s.Out n := by
  intro head l hl hin
  obtain ⟨l₁, l₂, rfl⟩ := List.append_of_mem hin
  have hslot := (hs.hangs head _ hl).hung.slot_eq
  have hnone : (hooks m).slot n = none := by
    show (m.nodes.cells n).bind _ = _
    rw [hs.idle n hn]
    rfl
  rw [hnone] at hslot
  cases hslot

/-- An edit of one list.  `l'` are the nodes that are in it before or after. -/
theorem Represents.set (hs : Represents m s) {l' : List Addr} (idle : Set Addr)
    (he : Edited m m' (within head l')) (hhangs : Hangs (hooks m') (.first head) l)
    (hother : ∀ head₀ l₀, head₀ ≠ head → s.entries head₀ = some l₀ → ∀ a ∈ l', a ∉ l₀)
    (hidle : ∀ n ∈ idle, m'.nodes.cells n = some ⟨.null, .null⟩) :
    Represents m' { s.set head l with idle := idle } where
  hangs head₀ l₀ hl₀ := by
    by_cases hh : head₀ = head
    · obtain rfl := hh
      obtain rfl : l = l₀ := by simpa [Lists.set] using hl₀
      exact hhangs
    · have hold : s.entries head₀ = some l₀ := by simpa [Lists.set, hh] using hl₀
      refine hangs_of_edited (hs.hangs head₀ l₀ hold) he fun slot hslot hin => ?_
      rcases List.mem_cons.mp hin with rfl | hin
      · simp [within, Ne.symm hh] at hslot
      · obtain ⟨a, ha, rfl⟩ := List.mem_map.mp hin
        have ha₀ : a ∈ l₀ := by simpa [within] using hslot
        exact hother head₀ l₀ hh hold a ha ha₀
  idle := hidle

/-- What is idle stays, where it is not among the nodes of the edited list. -/
theorem Represents.idle_of_edited (hs : Represents m s) {l' : List Addr}
    (he : Edited m m' (within head l')) (hn : n ∈ s.idle) (hout : n ∉ l') :
    m'.nodes.cells n = some ⟨.null, .null⟩ := by
  rw [he.nodes_eq n ?_]
  · exact hs.idle n hn
  · simpa [within] using hout

/-- A list is no longer than the heap is large. -/
theorem Represents.length_lt (hs : Represents m s) (hl : s.entries head = some l) :
    l.length < m.nodes.next + 1 := by
  have hhung := (hs.hangs head l hl).hung
  have hsub : l ⊆ List.range m.nodes.next := by
    intro a ha
    obtain ⟨c, hc⟩ := Heap.live_iff.mp (live_of_hung hhung a ha)
    exact List.mem_range.mpr (Heap.lt_next hc)
  have hle := (List.subperm_of_subset hhung.nodup hsub).length_le
  rw [List.length_range] at hle
  exact Nat.lt_succ_of_le hle

/-- `n` comes into a list, at whatever place. -/
theorem Represents.enter (hs : Represents m s) {l' : List Addr} (hn : s.Out n)
    (hl : s.entries head = some l) (he : Edited m m' (within head l'))
    (hhangs : Hangs (hooks m') (.first head) l') (hperm : l'.Perm (n :: l)) :
    Represents m' { s.set head l' with idle := s.idle \ {n} } := by
  apply hs.set _ he hhangs
  · intro head₀ l₀ hh hl₀ a ha
    rcases List.mem_cons.mp (hperm.subset ha) with rfl | ha
    · exact hn head₀ l₀ hl₀
    · exact hs.outside hl hl₀ hh a ha
  · rintro x ⟨hx, hne⟩
    apply hs.idle_of_edited he hx
    intro hin
    rcases List.mem_cons.mp (hperm.subset hin) with rfl | hin
    · exact hne rfl
    · exact hs.out_of_idle hx head l hl hin

/-- Nodes go out of a list. -/
theorem Represents.leave (hs : Represents m s) {l' : List Addr} (hl : s.entries head = some l)
    (he : Edited m m' (within head l)) (hhangs : Hangs (hooks m') (.first head) l')
    (gone : Set Addr) (hgone : ∀ x ∈ gone, m'.nodes.cells x = some ⟨.null, .null⟩) :
    Represents m' { s.set head l' with idle := s.idle ∪ gone } := by
  apply hs.set _ he hhangs
  · exact fun head₀ l₀ hh hl₀ => hs.outside hl hl₀ hh
  · rintro x (hx | hx)
    · exact hs.idle_of_edited he hx (hs.out_of_idle hx head l hl)
    · exact hgone x hx

/-- The objects of the memory stay the same. -/
def SameObjects (m m' : Memory) : Prop :=
  (∀ h, m'.heads.Live h ↔ m.heads.Live h) ∧ ∀ a, m'.nodes.Live a ↔ m.nodes.Live a

/-- An edit allocates and frees nothing. -/
theorem Edited.sameObjects {touched : List SlotAddr} (he : Edited m m' touched) :
    SameObjects m m' := ⟨he.live_heads, he.live_nodes⟩

/-- What an operation may be called on stays so while no object comes or goes. -/
theorem SameObjects.ready (h : SameObjects m m') {op : Op} (hop : op.Ready m) : op.Ready m' := by
  cases op <;> first
    | exact (h.1 _).mpr hop
    | exact (h.2 _).mpr hop
    | trivial

/-- `INIT_HLIST_HEAD`, also of a head that has a list: its nodes are lost. -/
theorem Represents.initHead (hs : Represents m s) (he : Edited m m' [.first head])
    (hhangs : Hangs (hooks m') (.first head) []) : Represents m' (s.set head []) := by
  have he' : Edited m m' (within head []) := he
  exact hs.set s.idle he' hhangs (by simp) fun n hn => hs.idle_of_edited he' hn (by simp)

/-- A node that is in no list is made ready for one. -/
theorem Represents.initNode (hs : Represents m s) (hn : s.Out n) (he : Edited m m' [.next n])
    (hcell : m'.nodes.cells n = some ⟨.null, .null⟩) :
    Represents m' { s with idle := insert n s.idle } where
  hangs head l hl := by
    refine hangs_of_edited (hs.hangs head l hl) he fun slot hslot hin => ?_
    obtain rfl := List.mem_singleton.mp hin
    exact hn head l hl (by simpa [within] using hslot)
  idle x hx := by
    by_cases hxn : x = n
    · exact hxn ▸ hcell
    · rw [he.nodes_eq x (by simpa using hxn)]
      exact hs.idle x (hx.resolve_left hxn)

/-! ### The operations refine the lists -/

/-- **One operation.** -/
theorem exec_step {op : Op} {r : Result} (hs : Represents m s) (hready : op.Ready m)
    (hstep : s.Step op r t) :
    ∃ m', op.exec m = .ok (m', r) ∧ Represents m' t ∧ SameObjects m m' := by
  cases hstep with
  | initHead =>
    obtain ⟨m', hrun, he, hhangs⟩ := initHlistHead_hangs hready
    exact ⟨m', by rw [Op.exec, hrun]; rfl, hs.initHead he hhangs, he.sameObjects⟩
  | initNode hn =>
    obtain ⟨m', hrun, he, hcell⟩ := write_node hready .null .null
    exact ⟨m', by rw [Op.exec, hlistNodeInit, initHlistNode, hrun]; rfl, hs.initNode hn he hcell,
      he.sameObjects⟩
  | @addHead n head l hn hl =>
    obtain ⟨m', hrun, he, hhangs⟩ := hlistAddHead_hangs (hs.hangs head l hl) hready (hn head l hl)
    exact ⟨m', by rw [Op.exec, hrun]; rfl, hs.enter hn hl he hhangs (List.Perm.refl _),
      he.sameObjects⟩
  | @addBefore n next head l₁ l₂ hn hl =>
    obtain ⟨m', hrun, he, hhangs⟩ :=
      hlistAddBefore_hangs (hs.hangs head _ hl) hready (hn head _ hl)
    exact ⟨m', by rw [Op.exec, hrun]; rfl, hs.enter hn hl he hhangs List.perm_middle,
      he.sameObjects⟩
  | @addAfter n next head l₁ l₂ hn hl =>
    obtain ⟨m', hrun, he, hhangs⟩ :=
      hlistAddAfter_hangs (hs.hangs head _ hl) hready (hn head _ hl)
    have hperm : (l₁ ++ n :: next :: l₂).Perm (next :: (l₁ ++ n :: l₂)) :=
      ((List.Perm.swap next n l₂).append_left l₁).trans List.perm_middle
    exact ⟨m', by rw [Op.exec, hrun]; rfl, hs.enter hn hl he hhangs hperm, he.sameObjects⟩
  | @del n head l₁ l₂ hl =>
    obtain ⟨m', hrun, he, hhangs, -⟩ := hlistDel_hangs (hs.hangs head _ hl)
    have hs' := hs.leave hl he hhangs ∅ (by simp)
    rw [Set.union_empty] at hs'
    exact ⟨m', by rw [Op.exec, hrun]; rfl, hs', he.sameObjects⟩
  | @delInit n head l₁ l₂ hl =>
    obtain ⟨m', hrun, he, hhangs, hcell⟩ := hlistDelInit_hangs (hs.hangs head _ hl)
    have hs' := hs.leave hl he hhangs {n} (by simpa using hcell)
    rw [Set.union_singleton] at hs'
    exact ⟨m', by rw [Op.exec, hrun]; rfl, hs', he.sameObjects⟩
  | delInitIdle hn =>
    exact ⟨m, by rw [Op.exec, (hlistDelInit_idle (hs.idle _ hn)).2]; rfl, hs,
      (Edited.refl m []).sameObjects⟩
  | empty hl =>
    exact ⟨m, by rw [Op.exec, hlistEmpty_hangs (hs.hangs _ _ hl)]; rfl, hs,
      (Edited.refl m []).sameObjects⟩
  | unhashed hn =>
    exact ⟨m, by rw [Op.exec, (hlistDelInit_idle (hs.idle _ hn)).1]; rfl, hs,
      (Edited.refl m []).sameObjects⟩
  | hashed hl hn =>
    exact ⟨m, by rw [Op.exec, hlistUnhashed_hung (hs.hangs _ _ hl).hung hn]; rfl, hs,
      (Edited.refl m []).sameObjects⟩
  | @visit head l hl =>
    have h := hs.hangs head l hl
    have hloop := (loops_tally h (fun seen pos => seen ++ [pos]) [] (hs.length_lt hl)).1
    rw [tallied_note] at hloop
    refine ⟨m, ?_, hs, (Edited.refl m []).sameObjects⟩
    rw [Op.exec, hlistForEach, (firstOf_hangs h).2, ok_bind]
    exact congrArg (· >>= _) hloop
  | @sweep head l p hl =>
    obtain ⟨m', hrun, he, hhangs, -⟩ :=
      hlistForEachSafe_sweeps hlistDel_deletes p (hs.hangs head l hl) (hs.length_lt hl)
    have hs' := hs.leave hl he hhangs ∅ (by simp)
    rw [Set.union_empty] at hs'
    exact ⟨m', by rw [Op.exec, hrun]; rfl, hs', he.sameObjects⟩
  | @sweepInit head l p hl =>
    obtain ⟨m', hrun, he, hhangs, hcells⟩ :=
      hlistForEachSafe_sweeps hlistDelInit_deletes p (hs.hangs head l hl) (hs.length_lt hl)
    exact ⟨m', by rw [Op.exec, hrun]; rfl,
      hs.leave hl he hhangs _ fun x hx => hcells x hx.1 hx.2, he.sameObjects⟩

/-- **Programs.**  As long as its callers keep to the contract, a program over the single pointer
    lists runs to its end without following a pointer that leads nowhere, every operation returns
    what the lists say, and in the end the memory holds the lists of the end. -/
theorem runHlistOps_refines {ops : List Op} {rs : List Result} (hrun : s.Run ops rs t)
    (hs : Represents m s) (hready : ∀ op ∈ ops, op.Ready m) :
    ∃ m', run execOp (m, []) ops = .ok (m', rs) ∧ Represents m' t := by
  have hlog : ∀ log, ∃ m', run execOp (m, log) ops = .ok (m', log ++ rs) ∧ Represents m' t := by
    induction hrun generalizing m with
    | nil => exact fun log => ⟨m, by simp, hs⟩
    | @cons s s₁ t op ops r rs hstep hrun ih =>
      intro log
      obtain ⟨m₁, hexec, hs₁, hsame⟩ := exec_step hs (hready op List.mem_cons_self) hstep
      obtain ⟨m', hrest, hs'⟩ := ih hs₁ (fun op' hop =>
        hsame.ready (hready op' (List.mem_cons_of_mem _ hop))) (log ++ [r])
      refine ⟨m', ?_, hs'⟩
      rw [run_cons_of_ok (m := (m₁, log ++ [r])) (by rw [execOp, hexec]; rfl), hrest]
      simp
  obtain ⟨m', h, hs'⟩ := hlog []
  exact ⟨m', by simpa using h, hs'⟩

/-- A head and three nodes that have not been used. -/
def unusedNodes : Memory where
  heads := Heap.empty.alloc ⟨.poison1⟩
  nodes := ((Heap.empty.alloc ⟨.null, .null⟩).alloc ⟨.null, .null⟩).alloc ⟨.null, .null⟩

/-- The head 0 is the only one. -/
def oneList (l : List Addr) (idle : Set Addr) : Lists :=
  ⟨Function.update (fun _ => none) 0 (some l), idle⟩

theorem oneList_entries (l : List Addr) (idle : Set Addr) :
    (oneList l idle).entries 0 = some l := rfl

theorem oneList_idle (l : List Addr) (idle : Set Addr) : (oneList l idle).idle = idle := rfl

theorem oneList_set (l l' : List Addr) (idle idle' : Set Addr) :
    ({ (oneList l idle).set 0 l' with idle := idle' } : Lists) = oneList l' idle' := by
  rw [oneList, oneList, Lists.set, Function.update_idem]

theorem oneList_out {idle : Set Addr} (hn : n ∉ l) : (oneList l idle).Out n := by
  intro head l' hl'
  by_cases hh : head = 0
  · obtain rfl : l = l' := by simpa [oneList, hh] using hl'
    exact hn
  · simp [oneList, hh] at hl'

/-- A node goes in front of another one and one behind it, and then the one in the middle goes out;
    the second `hlist_del_init` finds it out. -/
theorem runHlistOps_unusedNodes :
    ∃ m', run execOp (unusedNodes, [])
        [.initHead 0, .addHead 0 0, .addBefore 1 0, .addAfter 0 2, .visit 0, .delInit 0,
          .unhashed 0, .delInit 0, .visit 0] =
      .ok (m', [.done, .done, .done, .done, .seen [.to 1, .to 0, .to 2], .done, .flag true, .done,
        .seen [.to 1, .to 2]]) ∧
      Represents m' (oneList [1, 2] {0}) := by
  have hinit : (⟨fun _ => none, ∅⟩ : Lists).set 0 [] = oneList [] ∅ := rfl
  refine runHlistOps_refines (s := ⟨fun _ => none, ∅⟩) (.cons .initHead ?_)
    ⟨by simp, by simp⟩ ?_
  · rw [hinit]
    refine .cons (.addHead (oneList_out (by simp)) (oneList_entries [] _)) ?_
    rw [oneList_set]
    refine .cons (.addBefore (oneList_out (by simp)) (oneList_entries ([] ++ [0]) _)) ?_
    rw [oneList_set]
    refine .cons (.addAfter (oneList_out (by simp)) (oneList_entries ([1] ++ [0]) _)) ?_
    rw [oneList_set]
    have hlist := oneList_entries ([1] ++ 0 :: [2])
    refine .cons (.visit (hlist _)) (.cons (.delInit (hlist _)) ?_)
    rw [oneList_set]
    simp only [oneList_idle, Set.empty_sdiff, insert_empty_eq]
    have hin : (0 : Addr) ∈ (oneList [1, 2] {0}).idle := Set.mem_singleton 0
    exact .cons (.unhashed hin) (.cons (.delInitIdle hin)
      (.cons (.visit (oneList_entries [1, 2] _)) .nil))
  · intro op hop
    simp only [List.mem_cons, List.not_mem_nil, or_false] at hop
    rcases hop with rfl | rfl | rfl | rfl | rfl | rfl | rfl | rfl | rfl <;>
      first
        | exact rfl
        | trivial

end SimpleHttp.PetHlist
