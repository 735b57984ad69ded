import SimpleHttp.PetList

namespace SimpleHttp.PetList

open Lib

/-!
# The iteration macros of `pet_list.h`

* `forLoop`, `safeLoop` — the two shapes of loop; a body may write the memory, and may leave.
* `listForEach` and its relatives — each macro as one of the shapes with its own start and step.
* `forLoop_rule`, `safeLoop_rule` — what a loop leaves behind, from an invariant of its body.
* `traversals`, `resumptions` — a traversal visits every entry once and in order, from wherever it
  starts.
* `listForEachSafe_sweeps`, `listForEach_delIf_iff` — deleting the current entry is harmless in the
  safe loops, and ruins the plain ones.
-/

variable {σ : Type}

/-- How a body ends: by going on, or by `break`. -/
inductive Flow where
  | next
  | leave
  deriving DecidableEq, Repr

/-- What a loop does at `pos`; `σ` is the rest of the program's state. -/
abbrev Body (σ : Type) := Memory → σ → Pointer → Except Fault (Memory × σ × Flow)

/-- `pos->next` or `pos->prev`. -/
abbrev Step := Memory → Pointer → Except Fault Pointer

/-- `prefetch(step(pos))`, in the macros that have it. -/
def fetch (prefetch : Bool) (step : Step) (m : Memory) (pos : Pointer) : Except Fault Unit :=
  if prefetch then do
    let _ ← step m pos
    pure ()
  else pure ()

/-- `for (pos = …; prefetch(step(pos)), pos != head; pos = step(pos))`, from `pos` on. -/
def forLoop (prefetch : Bool) (step : Step) (head : Pointer) (body : Body σ) :
    Nat → Memory → σ → Pointer → Except Fault (Memory × σ × Pointer)
  | 0, _, _, _ => .error .outOfFuel
  | fuel + 1, m, s, pos => do
      fetch prefetch step m pos
      if pos = head then pure (m, s, pos)
      else
        let (m, s, flow) ← body m s pos
        match flow with
        | .leave => pure (m, s, pos)
        | .next => forLoop prefetch step head body fuel m s (← step m pos)

/-- `for (pos = …, n = step(pos); pos != head; pos = n, n = step(pos))`, from `pos` and `n` on. -/
def safeLoop (step : Step) (head : Pointer) (body : Body σ) :
    Nat → Memory → σ → Pointer → Pointer → Except Fault (Memory × σ × Pointer)
  | 0, _, _, _, _ => .error .outOfFuel
  | fuel + 1, m, s, pos, n =>
      if pos = head then pure (m, s, pos)
      else do
        let (m, s, flow) ← body m s pos
        match flow with
        | .leave => pure (m, s, pos)
        | .next => safeLoop step head body fuel m s n (← step m n)

/-! ### The macros -/

section Macros

variable (fuel : Nat) (m : Memory) (s : σ) (pos head : Pointer) (body : Body σ)

/-- `list_for_each`. -/
def listForEach : Except Fault (Memory × σ × Pointer) := do
  forLoop true nextOf head body fuel m s (← nextOf m head)

/-- `__list_for_each`. -/
def Internal.listForEach : Except Fault (Memory × σ × Pointer) := do
  forLoop false nextOf head body fuel m s (← nextOf m head)

/-- `list_for_each_prev`. -/
def listForEachPrev : Except Fault (Memory × σ × Pointer) := do
  forLoop true prevOf head body fuel m s (← prevOf m head)

/-- `list_for_each_safe`. -/
def listForEachSafe : Except Fault (Memory × σ × Pointer) := do
  let pos ← nextOf m head
  safeLoop nextOf head body fuel m s pos (← nextOf m pos)

/-- `list_for_each_entry`. -/
def listForEachEntry : Except Fault (Memory × σ × Pointer) := listForEach fuel m s head body

/-- `list_for_each_entry_reverse`. -/
def listForEachEntryReverse : Except Fault (Memory × σ × Pointer) :=
  listForEachPrev fuel m s head body

/-- `list_prepare_entry`. -/
def listPrepareEntry : Pointer := if pos = .null then head else pos

/-- `list_for_each_entry_continue`. -/
def listForEachEntryContinue : Except Fault (Memory × σ × Pointer) := do
  forLoop true nextOf head body fuel m s (← nextOf m pos)

/-- `list_for_each_entry_from`. -/
def listForEachEntryFrom : Except Fault (Memory × σ × Pointer) :=
  forLoop true nextOf head body fuel m s pos

/-- `list_for_each_entry_safe`. -/
def listForEachEntrySafe : Except Fault (Memory × σ × Pointer) :=
  listForEachSafe fuel m s head body

/-- `list_for_each_entry_safe_continue`. -/
def listForEachEntrySafeContinue : Except Fault (Memory × σ × Pointer) := do
  let pos ← nextOf m pos
  safeLoop nextOf head body fuel m s pos (← nextOf m pos)

/-- `list_for_each_entry_safe_from`. -/
def listForEachEntrySafeFrom : Except Fault (Memory × σ × Pointer) := do
  safeLoop nextOf head body fuel m s pos (← nextOf m pos)

/-- `list_for_each_entry_safe_reverse`. -/
def listForEachEntrySafeReverse : Except Fault (Memory × σ × Pointer) := do
  let pos ← prevOf m head
  safeLoop prevOf head body fuel m s pos (← prevOf m pos)

end Macros

/-! ### The rules of the two shapes -/

/-- Where a loop stands: at the first entry still to come, or back at the head. -/
def frontOf (todo : List Addr) (head : Addr) : Pointer :=
  match todo with
  | [] => .to head
  | x :: _ => .to x

/-- A prefetch reads what the step reads. -/
theorem fetch_eq {prefetch : Bool} {step : Step} {m : Memory} {pos q : Pointer}
    (h : step m pos = .ok q) : fetch prefetch step m pos = .ok () := by
  cases prefetch
  · rfl
  · rw [fetch, if_pos rfl, h, ok_bind, pure_ok]

section Rules

variable (step : Step) {head : Addr} (body : Body σ) (I : List Addr → List Addr → Memory → σ → Prop)

/-- **Plain loops.**  `I done todo` holds whenever the entries `done` have been visited and `todo`
    are still to come. -/
theorem forLoop_rule (prefetch : Bool)
    (hpre : ∀ done todo m s, I done todo m s → ∃ q, step m (frontOf todo head) = .ok q)
    (hbody : ∀ done x todo m s, I done (x :: todo) m s → ∃ m' s',
      body m s (.to x) = .ok (m', s', .next) ∧ I (done ++ [x]) todo m' s' ∧
        step m' (.to x) = .ok (frontOf todo head))
    (done : List Addr) {todo : List Addr} (hhead : head ∉ todo) {m : Memory} {s : σ}
    (h : I done todo m s)
    {fuel : Nat} (hfuel : todo.length < fuel) :
    ∃ m' s', forLoop prefetch step (.to head) body fuel m s (frontOf todo head) =
      .ok (m', s', .to head) ∧ I (done ++ todo) [] m' s' := by
  induction todo generalizing done m s fuel with
  | nil =>
    obtain ⟨fuel, rfl⟩ : ∃ n, fuel = n + 1 := Nat.exists_eq_succ_of_ne_zero (Nat.ne_of_gt hfuel)
    obtain ⟨q, hq⟩ := hpre done [] m s h
    refine ⟨m, s, ?_, by simpa using h⟩
    rw [forLoop, fetch_eq hq, ok_bind, frontOf, if_pos rfl, pure_ok]
  | cons x todo ih =>
    obtain ⟨fuel, rfl⟩ : ∃ n, fuel = n + 1 :=
      Nat.exists_eq_succ_of_ne_zero (Nat.ne_of_gt (Nat.zero_lt_of_lt hfuel))
    rw [List.mem_cons, not_or] at hhead
    obtain ⟨q, hq⟩ := hpre done (x :: todo) m s h
    obtain ⟨m₁, s₁, hrun, h₁, hstep⟩ := hbody done x todo m s h
    obtain ⟨m', s', hloop, h'⟩ := ih _ hhead.2 h₁ (Nat.lt_of_succ_lt_succ hfuel)
    have hne : Pointer.to x ≠ .to head := fun heq => hhead.1 (Pointer.to.inj heq).symm
    refine ⟨m', s', ?_, by simpa using h'⟩
    rw [forLoop, fetch_eq hq, ok_bind, frontOf, if_neg hne, hrun]
    simp only [ok_bind, hstep, hloop]

/-- **Safe loops.**  The step is taken before the body runs, so the body may unlink its entry. -/
theorem safeLoop_rule
    (hstep : ∀ done y todo m s, I done (y :: todo) m s → step m (.to y) = .ok (frontOf todo head))
    (hturn : ∀ done m s, I done [] m s → ∃ q, step m (.to head) = .ok q)
    (hbody : ∀ done x todo m s, I done (x :: todo) m s → ∃ m' s',
      body m s (.to x) = .ok (m', s', .next) ∧ I (done ++ [x]) todo m' s')
    (done : List Addr) {todo : List Addr} (hhead : head ∉ todo) {m : Memory} {s : σ}
    (h : I done todo m s)
    {fuel : Nat} (hfuel : todo.length < fuel) {n : Pointer}
    (hn : step m (frontOf todo head) = .ok n) :
    ∃ m' s', safeLoop step (.to head) body fuel m s (frontOf todo head) n =
      .ok (m', s', .to head) ∧ I (done ++ todo) [] m' s' := by
  induction todo generalizing done m s fuel n with
  | nil =>
    obtain ⟨fuel, rfl⟩ : ∃ n, fuel = n + 1 := Nat.exists_eq_succ_of_ne_zero (Nat.ne_of_gt hfuel)
    exact ⟨m, s, by simp [safeLoop, frontOf], by simpa using h⟩
  | cons x todo ih =>
    obtain ⟨fuel, rfl⟩ : ∃ n, fuel = n + 1 :=
      Nat.exists_eq_succ_of_ne_zero (Nat.ne_of_gt (Nat.zero_lt_of_lt hfuel))
    rw [List.mem_cons, not_or] at hhead
    obtain ⟨m₁, s₁, hrun, h₁⟩ := hbody done x todo m s h
    -- `n` is where the loop goes next, whatever the body has done to `x`
    obtain rfl : n = frontOf todo head :=
      Except.ok.inj (hn.symm.trans (hstep done x todo m s h))
    obtain ⟨q, hq⟩ : ∃ q, step m₁ (frontOf todo head) = .ok q := by
      cases todo with
      | nil => exact hturn _ m₁ s₁ h₁
      | cons y todo => exact ⟨_, hstep _ y todo m₁ s₁ h₁⟩
    obtain ⟨m', s', hloop, h'⟩ := ih _ hhead.2 h₁ (Nat.lt_of_succ_lt_succ hfuel) hq
    have hne : Pointer.to x ≠ .to head := fun heq => hhead.1 (Pointer.to.inj heq).symm
    refine ⟨m', s', ?_, by simpa using h'⟩
    rw [safeLoop, frontOf, if_neg hne, hrun]
    simp only [ok_bind, hq, hloop]

end Rules

/-! ### Around a ring -/

/-- The successor of an entry is what the loop comes to next. -/
theorem Ring.succ_front {k : Links Addr} {head y : Addr} {pre post : List Addr}
    (h : k.Ring ↑(head :: (pre ++ y :: post))) :
    ∃ b, k.succ y = some b ∧ frontOf post head = .to b := by
  rw [← List.cons_append, Links.ring_append_comm, List.cons_append] at h
  rw [h.succ_eq]
  cases post with
  | nil => exact ⟨head, rfl, rfl⟩
  | cons z post => exact ⟨z, rfl, rfl⟩

/-- The successor of the head is where it starts. -/
theorem Ring.succ_head {k : Links Addr} {head : Addr} {l : List Addr} (h : k.Ring ↑(head :: l)) :
    ∃ b, k.succ head = some b ∧ frontOf l head = .to b := by
  rw [h.succ_eq]
  cases l with
  | nil => exact ⟨head, rfl, rfl⟩
  | cons z l => exact ⟨z, rfl, rfl⟩

/-- A step that follows the links `k`. -/
def Follows (step : Step) (m : Memory) (k : Links Addr) : Prop :=
  ∀ a b, k.succ a = some b → step m (.to a) = .ok (.to b)

/-- `pos->next` follows the links. -/
theorem follows_nextOf (m : Memory) : Follows nextOf m (links m) := fun _ _ => nextOf_eq

/-- `pos->prev` follows them the other way round. -/
theorem follows_prevOf (m : Memory) : Follows prevOf m (links m).flip := fun _ _ => prevOf_eq

/-- The step from an entry. -/
theorem Follows.front {step : Step} {m : Memory} {k : Links Addr} (hstep : Follows step m k)
    {head y : Addr} {pre post : List Addr} (h : k.Ring ↑(head :: (pre ++ y :: post))) :
    step m (.to y) = .ok (frontOf post head) := by
  obtain ⟨b, hb, hfront⟩ := Ring.succ_front h
  rw [hstep y b hb, hfront]

/-- The step from the head. -/
theorem Follows.head {step : Step} {m : Memory} {k : Links Addr} (hstep : Follows step m k)
    {head : Addr} {l : List Addr} (h : k.Ring ↑(head :: l)) :
    step m (.to head) = .ok (frontOf l head) := by
  obtain ⟨b, hb, hfront⟩ := Ring.succ_head h
  rw [hstep head b hb, hfront]

/-- The step from where the loop stands. -/
theorem Follows.exists_front {step : Step} {m : Memory} {k : Links Addr}
    (hstep : Follows step m k) {head : Addr} (done : List Addr) {todo : List Addr}
    (h : k.Ring ↑(head :: (done ++ todo))) : ∃ q, step m (frontOf todo head) = .ok q := by
  cases todo with
  | nil => exact ⟨_, hstep.head h⟩
  | cons x todo => exact ⟨_, hstep.front h⟩

/-! ### Traversals -/

/-- A body that reads only: it updates the rest of the state by `f`. -/
def tally (f : σ → Pointer → σ) : Body σ := fun m s pos => .ok (m, f s pos, .next)

/-- The state after `f` has seen the entries in order. -/
def tallied (f : σ → Pointer → σ) (s : σ) (l : List Addr) : σ := (l.map Pointer.to).foldl f s

/-- A body that reads is shown all entries still to come. -/
theorem forLoop_tally {prefetch : Bool} {step : Step} {m : Memory} {k : Links Addr}
    (hstep : Follows step m k) {head : Addr} (pre : List Addr) {l : List Addr}
    (h : k.Ring ↑(head :: (pre ++ l))) (hhead : head ∉ l) (f : σ → Pointer → σ) (s : σ) {fuel : Nat}
    (hfuel : l.length < fuel) :
    forLoop prefetch step (.to head) (tally f) fuel m s (frontOf l head) =
      .ok (m, tallied f s l, .to head) := by
  obtain ⟨m', s', hloop, rfl, rfl, -⟩ := forLoop_rule step (tally f)
    (fun done todo m' s' => m' = m ∧ s' = tallied f s done ∧ done ++ todo = l) prefetch
    (fun done todo m' s' hI => by
      obtain ⟨rfl, -, rfl⟩ := hI
      rw [← List.append_assoc] at h
      exact hstep.exists_front (pre ++ done) h)
    (fun done x todo m' s' hI => by
      obtain ⟨rfl, rfl, rfl⟩ := hI
      rw [← List.append_assoc] at h
      refine ⟨m', _, rfl, ⟨rfl, ?_, by simp⟩, hstep.front h⟩
      simp [tallied])
    [] hhead ⟨rfl, rfl, rfl⟩ hfuel
  exact hloop

/-- A safe loop shows a body that reads all entries still to come. -/
theorem safeLoop_tally {step : Step} {m : Memory} {k : Links Addr} (hstep : Follows step m k)
    {head : Addr} (pre : List Addr) {l : List Addr} (h : k.Ring ↑(head :: (pre ++ l)))
    (hhead : head ∉ l) (f : σ → Pointer → σ) (s : σ) {fuel : Nat} (hfuel : l.length < fuel)
    {n : Pointer} (hn : step m (frontOf l head) = .ok n) :
    safeLoop step (.to head) (tally f) fuel m s (frontOf l head) n =
      .ok (m, tallied f s l, .to head) := by
  obtain ⟨m', s', hloop, rfl, rfl, -⟩ := safeLoop_rule step (tally f)
    (fun done todo m' s' => m' = m ∧ s' = tallied f s done ∧ done ++ todo = l)
    (fun done y todo m' s' hI => by
      obtain ⟨rfl, -, rfl⟩ := hI
      rw [← List.append_assoc] at h
      exact hstep.front h)
    (fun done m' s' hI => by
      obtain ⟨rfl, -, -⟩ := hI
      exact ⟨_, hstep.head h⟩)
    (fun done x todo m' s' hI => by
      obtain ⟨rfl, rfl, rfl⟩ := hI
      refine ⟨m', _, rfl, rfl, ?_, by simp⟩
      simp [tallied])
    [] hhead ⟨rfl, rfl, rfl⟩ hfuel hn
  exact hloop

/-- All entries, from the front. -/
theorem listForEach_tally {m : Memory} {head : Addr} {l : List Addr}
    (h : (links m).Ring ↑(head :: l)) (hnd : (head :: l).Nodup) (f : σ → Pointer → σ) (s : σ)
    {fuel : Nat} (hfuel : l.length < fuel) :
    listForEach fuel m s (.to head) (tally f) = .ok (m, tallied f s l, .to head) := by
  have hhead : head ∉ l := (List.nodup_cons.mp hnd).1
  rw [listForEach, (follows_nextOf m).head h, ok_bind,
    forLoop_tally (follows_nextOf m) [] h hhead f s hfuel]

/-- All entries, from the end. -/
theorem listForEachPrev_tally {m : Memory} {head : Addr} {l : List Addr}
    (h : (links m).Ring ↑(head :: l)) (hnd : (head :: l).Nodup) (f : σ → Pointer → σ) (s : σ)
    {fuel : Nat} (hfuel : l.length < fuel) :
    listForEachPrev fuel m s (.to head) (tally f) = .ok (m, tallied f s l.reverse, .to head) := by
  have hhead : head ∉ l.reverse := fun hin =>
    (List.nodup_cons.mp hnd).1 (List.mem_reverse.mp hin)
  have hfuel' : l.reverse.length < fuel := by rwa [List.length_reverse]
  rw [listForEachPrev, (follows_prevOf m).head h.flip, ok_bind,
    forLoop_tally (l := l.reverse) (follows_prevOf m) [] h.flip hhead f s hfuel']

/-- **Traversals.**  Over the entries of a list, each loop shows every entry to its body once, the
    forward ones in the order of the list and the others against it. -/
theorem traversals {m : Memory} {head : Addr} {l : List Addr} (h : (links m).Ring ↑(head :: l))
    (hnd : (head :: l).Nodup) (f : σ → Pointer → σ) (s : σ) {fuel : Nat}
    (hfuel : l.length < fuel) :
    listForEach fuel m s (.to head) (tally f) = .ok (m, tallied f s l, .to head) ∧
    Internal.listForEach fuel m s (.to head) (tally f) = .ok (m, tallied f s l, .to head) ∧
    listForEachSafe fuel m s (.to head) (tally f) = .ok (m, tallied f s l, .to head) ∧
    listForEachPrev fuel m s (.to head) (tally f) = .ok (m, tallied f s l.reverse, .to head) ∧
    listForEachEntry fuel m s (.to head) (tally f) = .ok (m, tallied f s l, .to head) ∧
    listForEachEntrySafe fuel m s (.to head) (tally f) = .ok (m, tallied f s l, .to head) ∧
    listForEachEntryReverse fuel m s (.to head) (tally f) =
      .ok (m, tallied f s l.reverse, .to head) ∧
    listForEachEntrySafeReverse fuel m s (.to head) (tally f) =
      .ok (m, tallied f s l.reverse, .to head) := by
  have hhead : head ∉ l := (List.nodup_cons.mp hnd).1
  have hhead' : head ∉ l.reverse := fun hin => hhead (List.mem_reverse.mp hin)
  have hfuel' : l.reverse.length < fuel := by rwa [List.length_reverse]
  have hnext := (follows_nextOf m).head h
  have hprev := (follows_prevOf m).head h.flip
  obtain ⟨n, hn⟩ := (follows_nextOf m).exists_front [] h
  obtain ⟨p, hp⟩ : ∃ p, prevOf m (frontOf l.reverse head) = .ok p :=
    (follows_prevOf m).exists_front [] h.flip
  have hforward := listForEach_tally h hnd f s hfuel
  have hback := listForEachPrev_tally h hnd f s hfuel
  have hsafe : listForEachSafe fuel m s (.to head) (tally f) =
      .ok (m, tallied f s l, .to head) := by
    rw [listForEachSafe, hnext, ok_bind, hn, ok_bind,
      safeLoop_tally (follows_nextOf m) [] h hhead f s hfuel hn]
  -- the entry loops are the loops over the links
  refine ⟨hforward, ?_, hsafe, hback, hforward, hsafe, hback, ?_⟩
  · rw [Internal.listForEach, hnext, ok_bind,
      forLoop_tally (follows_nextOf m) [] h hhead f s hfuel]
  · rw [listForEachEntrySafeReverse, hprev, ok_bind, hp, ok_bind,
      safeLoop_tally (l := l.reverse) (follows_prevOf m) [] h.flip hhead' f s hfuel' hp]

/-- The list of the entries 1 and 2, with the head 0. -/
def twoEntries : Memory :=
  ((Heap.empty.alloc ⟨.to 1, .to 2⟩).alloc ⟨.to 2, .to 0⟩).alloc ⟨.to 0, .to 1⟩

/-- Its ring. -/
theorem twoEntries_ring : (links twoEntries).Ring ↑[0, 1, 2] := by
  have h01 : (links twoEntries).Joined 0 1 := ⟨rfl, rfl⟩
  have h12 : (links twoEntries).Joined 1 2 := ⟨rfl, rfl⟩
  have h20 : (links twoEntries).Joined 2 0 := ⟨rfl, rfl⟩
  rw [Links.ring_cons]
  simp [h01, h12, h20]

/-- The entries are noted as they are seen. -/
theorem traversals_twoEntries :
    listForEach 3 twoEntries [] (.to 0) (tally fun seen pos => seen ++ [pos]) =
      .ok (twoEntries, [.to 1, .to 2], .to 0) ∧
    listForEachPrev 3 twoEntries [] (.to 0) (tally fun seen pos => seen ++ [pos]) =
      .ok (twoEntries, [.to 2, .to 1], .to 0) := by
  have hfuel : [1, 2].length < 3 := by decide
  obtain ⟨hforward, -, -, hback, -⟩ :=
    traversals twoEntries_ring (by decide) (fun seen pos => seen ++ [pos]) [] hfuel
  exact ⟨hforward, hback⟩

/-- **Resumed traversals.**  From an entry of the list, a loop shows its body the entries behind
    it, and with `_from` the entry itself first; from no entry, made ready with
    `list_prepare_entry`, it shows all of them. -/
theorem resumptions {m : Memory} {head x : Addr} {pre post : List Addr}
    (h : (links m).Ring ↑(head :: (pre ++ x :: post))) (hnd : (head :: (pre ++ x :: post)).Nodup)
    (f : σ → Pointer → σ) (s : σ) {fuel : Nat} (hfuel : (pre ++ x :: post).length < fuel) :
    listForEachEntryContinue fuel m s (listPrepareEntry (.to x) (.to head)) (.to head) (tally f) =
      .ok (m, tallied f s post, .to head) ∧
    listForEachEntryContinue fuel m s (listPrepareEntry .null (.to head)) (.to head) (tally f) =
      .ok (m, tallied f s (pre ++ x :: post), .to head) ∧
    listForEachEntrySafeContinue fuel m s (.to x) (.to head) (tally f) =
      .ok (m, tallied f s post, .to head) ∧
    listForEachEntryFrom fuel m s (.to x) (.to head) (tally f) =
      .ok (m, tallied f s (x :: post), .to head) ∧
    listForEachEntrySafeFrom fuel m s (.to x) (.to head) (tally f) =
      .ok (m, tallied f s (x :: post), .to head) := by
  have hall : head ∉ pre ++ x :: post := (List.nodup_cons.mp hnd).1
  have hfrom : head ∉ x :: post := fun hin => hall (List.mem_append_right _ hin)
  have hpost : head ∉ post := fun hin => hfrom (List.mem_cons_of_mem _ hin)
  have hlength : (x :: post).length < fuel := by
    rw [List.length_append] at hfuel
    omega
  have hlength' : post.length < fuel := Nat.lt_of_succ_lt hlength
  have hstep := follows_nextOf m
  have hhead := hstep.head h
  have hx := hstep.front h
  -- the loops behind `x` start as if they had passed it
  have h' : (links m).Ring ↑(head :: ((pre ++ [x]) ++ post)) := by simpa using h
  obtain ⟨n, hn⟩ := hstep.exists_front _ h'
  refine ⟨?_, ?_, ?_, ?_, ?_⟩
  · rw [listForEachEntryContinue, listPrepareEntry, if_neg (by simp), hx, ok_bind,
      forLoop_tally hstep _ h' hpost f s hlength']
  · rw [listForEachEntryContinue, listPrepareEntry, if_pos rfl, hhead, ok_bind,
      forLoop_tally (l := pre ++ x :: post) hstep [] h hall f s hfuel]
  · rw [listForEachEntrySafeContinue, hx, ok_bind, hn, ok_bind,
      safeLoop_tally hstep _ h' hpost f s hlength' hn]
  · exact forLoop_tally hstep pre h hfrom f s hlength
  · rw [listForEachEntrySafeFrom, hx, ok_bind]
    exact safeLoop_tally hstep pre h hfrom f s hlength hx

/-- From the first of the two. -/
theorem resumptions_twoEntries :
    listForEachEntryContinue 3 twoEntries [] (listPrepareEntry (.to 1) (.to 0)) (.to 0)
        (tally fun seen pos => seen ++ [pos]) = .ok (twoEntries, [.to 2], .to 0) ∧
      listForEachEntryFrom 3 twoEntries [] (.to 1) (.to 0) (tally fun seen pos => seen ++ [pos]) =
        .ok (twoEntries, [.to 1, .to 2], .to 0) := by
  have hfuel : ([] ++ 1 :: [2]).length < 3 := by decide
  obtain ⟨hcontinue, -, -, hfrom, -⟩ :=
    resumptions twoEntries_ring (by decide) (fun seen pos => seen ++ [pos]) [] hfuel
  exact ⟨hcontinue, hfrom⟩

/-! ### Searches -/

/-- **Searches.**  A body that only looks and leaves at the entries chosen by `p` ends the loop at
    the first of them, or behind the last entry at the head. -/
theorem forLoop_search {prefetch : Bool} {step : Step} {m : Memory} {k : Links Addr}
    (hstep : Follows step m k) {head : Addr} (pre : List Addr) {l : List Addr}
    (h : k.Ring ↑(head :: (pre ++ l))) (hhead : head ∉ l) (p : Addr → Bool) (body : Body σ) (s : σ)
    (hbody : ∀ x ∈ l, body m s (.to x) = .ok (m, s, if p x then .leave else .next)) {fuel : Nat}
    (hfuel : l.length < fuel) :
    forLoop prefetch step (.to head) body fuel m s (frontOf l head) =
      .ok (m, s, (l.find? p).elim (.to head) .to) := by
  induction l generalizing pre fuel with
  | nil =>
    obtain ⟨fuel, rfl⟩ : ∃ n, fuel = n + 1 := Nat.exists_eq_succ_of_ne_zero (Nat.ne_of_gt hfuel)
    obtain ⟨q, hq⟩ := hstep.exists_front pre h
    rw [forLoop, fetch_eq hq, ok_bind]
    exact if_pos rfl
  | cons x l ih =>
    obtain ⟨fuel, rfl⟩ : ∃ n, fuel = n + 1 :=
      Nat.exists_eq_succ_of_ne_zero (Nat.ne_of_gt (Nat.zero_lt_of_lt hfuel))
    rw [List.mem_cons, not_or] at hhead
    have hnext := hstep.front h
    have hne : Pointer.to x ≠ .to head := fun heq => hhead.1 (Pointer.to.inj heq).symm
    rw [forLoop, frontOf, fetch_eq hnext, ok_bind, if_neg hne, hbody x List.mem_cons_self, ok_bind]
    by_cases hp : p x = true
    · simp [hp]
    · have hsplit : k.Ring ↑(head :: ((pre ++ [x]) ++ l)) := by simpa using h
      have hrest := ih (pre ++ [x]) hsplit hhead.2
        (fun y hy => hbody y (List.mem_cons_of_mem _ hy)) (Nat.lt_of_succ_lt_succ hfuel)
      simpa [hp, hnext] using hrest

/-! ### Deleting the current entry -/

/-- A body that unlinks the entries chosen by `p`. -/
def delIf (p : Pointer → Bool) : Body Unit := fun m s pos => do
  if p pos then
    let m ← listDel m pos
    pure (m, s, .next)
  else pure (m, s, .next)

/-- The entries that `p` leaves in the list. -/
def kept (p : Pointer → Bool) (l : List Addr) : List Addr := l.filter fun x => !p (.to x)

/-- A deleting loop over `l` has come past `done`: the entries seen and not chosen are in front of
    those to come, and the chosen ones are poisoned. -/
structure Swept (p : Pointer → Bool) (m₀ : Memory) (head : Addr) (l done todo : List Addr)
    (m : Memory) : Prop where
  ring : (links m).Ring ↑(head :: (kept p done ++ todo))
  split : done ++ todo = l
  poison : ∀ x ∈ done, p (.to x) → m.cells x = some ⟨.poison1, .poison2⟩
  edited : Edited m₀ m (head :: l)

/-- An entry that stays. -/
theorem Swept.pass {p : Pointer → Bool} {m₀ m : Memory} {head x : Addr} {l done todo : List Addr}
    (h : Swept p m₀ head l done (x :: todo) m) (hp : p (.to x) = false) :
    Swept p m₀ head l (done ++ [x]) todo m := by
  refine ⟨by simpa [kept, hp] using h.ring, by simpa using h.split, fun y hy hpy => ?_, h.edited⟩
  rcases List.mem_append.mp hy with hy | hy
  · exact h.poison y hy hpy
  · obtain rfl := List.mem_singleton.mp hy
    rw [hp] at hpy
    cases hpy

/-- An entry that goes. -/
theorem Swept.delete {p : Pointer → Bool} {m₀ m : Memory} {head x : Addr} {l done todo : List Addr}
    (h : Swept p m₀ head l done (x :: todo) m) (hnd : (head :: l).Nodup)
    (hp : p (.to x) = true) :
    ∃ m', listDel m (.to x) = .ok m' ∧ Swept p m₀ head l (done ++ [x]) todo m' := by
  obtain ⟨hring, rfl, hpoison, hedit⟩ := h
  have hsub : (head :: (kept p done ++ x :: todo)).Sublist (head :: (done ++ x :: todo)) :=
    ((List.filter_sublist).append (List.Sublist.refl _)).cons_cons head
  -- the ring, turned until `x` is in front
  have hnd' := hnd.sublist hsub
  rw [← List.cons_append] at hring hnd'
  rw [Links.ring_append_comm, List.cons_append] at hring
  obtain ⟨m', hdel, hring', hcell, hedit'⟩ :=
    listDel_ring hring (by simp) ((List.perm_append_comm.nodup_iff).mp hnd')
  refine ⟨m', hdel, ?_, by simp, fun y hy hpy => ?_, ?_⟩
  · rw [Links.ring_append_comm] at hring'
    simpa [kept, hp] using hring'
  · rcases List.mem_append.mp hy with hy | hy
    · -- poisoned before, and not written since
      have hydone : y ∉ head :: x :: todo := by
        rw [List.nodup_cons, List.nodup_append] at hnd
        intro hin
        rcases List.mem_cons.mp hin with rfl | hin
        · exact hnd.1 (List.mem_append_left _ hy)
        · exact hnd.2.2.2 y hy y hin rfl
      rw [hedit'.cells_eq y ?_, hpoison y hy hpy]
      simp only [kept, List.mem_cons, List.mem_append, List.mem_filter, not_or] at hydone ⊢
      exact ⟨hydone.2.1, hydone.2.2, hydone.1, fun hin => by simp [hpy] at hin⟩
    · obtain rfl := List.mem_singleton.mp hy
      exact hcell
  · refine (hedit.trans hedit').mono (List.append_subset.mpr ⟨List.Subset.refl _, ?_⟩)
    refine fun y hy => hsub.subset ?_
    simp only [List.mem_cons, List.mem_append] at hy ⊢
    tauto

/-- The loop at its start. -/
theorem swept_start {p : Pointer → Bool} {m : Memory} {head : Addr} {l : List Addr}
    (h : (links m).Ring ↑(head :: l)) : Swept p m head l [] l m :=
  ⟨h, rfl, by simp, Edited.refl ..⟩

/-- **Safe deletion.**  The safe loop sees every entry, and leaves the list of those that the body
    has not chosen; the chosen ones are poisoned. -/
theorem listForEachSafe_sweeps {m : Memory} {head : Addr} {l : List Addr}
    (h : (links m).Ring ↑(head :: l)) (hnd : (head :: l).Nodup) (p : Pointer → Bool) {fuel : Nat}
    (hfuel : l.length < fuel) :
    ∃ m', listForEachSafe fuel m () (.to head) (delIf p) = .ok (m', (), .to head) ∧
      (links m').Ring ↑(head :: kept p l) ∧
      (∀ x ∈ l, p (.to x) → m'.cells x = some ⟨.poison1, .poison2⟩) ∧
      Edited m m' (head :: l) := by
  have hnext := (follows_nextOf m).head h
  obtain ⟨n, hn⟩ := (follows_nextOf m).exists_front [] h
  obtain ⟨m', ⟨⟩, hloop, hswept⟩ := safeLoop_rule nextOf (delIf p)
    (fun done todo m' _ => Swept p m head l done todo m')
    (fun done y todo m' _ hI => (follows_nextOf m').front hI.ring)
    (fun done m' _ hI => ⟨_, (follows_nextOf m').head hI.ring⟩)
    (fun done x todo m' _ hI => by
      by_cases hp : p (.to x) = true
      · obtain ⟨m₁, hdel, h₁⟩ := hI.delete hnd hp
        exact ⟨m₁, (), by rw [delIf, if_pos hp, hdel]; rfl, h₁⟩
      · exact ⟨m', (), by rw [delIf, if_neg hp]; rfl, hI.pass (by simpa using hp)⟩)
    [] (List.nodup_cons.mp hnd).1 (swept_start h) hfuel hn
  refine ⟨m', by rw [listForEachSafe, hnext, ok_bind, hn, ok_bind, hloop], ?_, ?_, hswept.edited⟩
  · simpa using hswept.ring
  · simpa using hswept.poison

/-- A plain loop does not get past an entry that its body deletes: its next step starts from a
    poisoned pointer. -/
theorem forLoop_delIf_stuck (prefetch : Bool) {p : Pointer → Bool} {m₀ m : Memory} {head : Addr}
    {l done todo : List Addr} (h : Swept p m₀ head l done todo m) (hnd : (head :: l).Nodup)
    (hex : ∃ x ∈ todo, p (.to x) = true) (fuel : Nat) :
    ∃ e, forLoop prefetch nextOf (.to head) (delIf p) fuel m () (frontOf todo head) =
      .error e := by
  induction todo generalizing done m fuel with
  | nil =>
    obtain ⟨x, hx, -⟩ := hex
    cases hx
  | cons x todo ih =>
    cases fuel with
    | zero => exact ⟨_, rfl⟩
    | succ fuel =>
      have hstep := (follows_nextOf m).front h.ring
      have hne : Pointer.to x ≠ .to head := by
        rintro ⟨⟩
        exact (List.nodup_cons.mp hnd).1 (h.split ▸ by simp)
      rw [forLoop, frontOf, fetch_eq hstep, ok_bind, if_neg hne, delIf]
      by_cases hp : p (.to x) = true
      · obtain ⟨m', hdel, h'⟩ := h.delete hnd hp
        have hcell := h'.poison x (by simp) hp
        have hnext : nextOf m' (.to x) = .ok .poison1 := by
          simp only [nextOf, deref_eq hcell, ok_bind, pure_ok]
        rw [if_pos hp, hdel]
        simp only [ok_bind, pure_ok, hnext]
        -- with or without `prefetch`, `LIST_POISON1` is followed
        cases fuel with
        | zero => exact ⟨_, rfl⟩
        | succ fuel =>
          cases prefetch <;> by_cases hpp : p .poison1 = true <;>
            exact ⟨.poison, by simp [forLoop, fetch, delIf, hpp, nextOf, listDel, prevOf, deref]⟩
      · obtain ⟨y, hy, hpy⟩ := hex
        have hex' : ∃ x ∈ todo, p (.to x) = true := by
          rcases List.mem_cons.mp hy with rfl | hy
          · exact absurd hpy hp
          · exact ⟨y, hy, hpy⟩
        rw [if_neg hp]
        simp only [ok_bind, pure_ok, hstep]
        exact ih (h.pass (by simpa using hp)) hex' fuel

/-- A body that deletes nothing comes to the end. -/
theorem forLoop_delIf_passes (prefetch : Bool) {p : Pointer → Bool} {m : Memory} {head : Addr}
    {l : List Addr} (h : (links m).Ring ↑(head :: l)) (hnd : (head :: l).Nodup)
    (hno : ∀ x ∈ l, p (.to x) = false) {fuel : Nat} (hfuel : l.length < fuel) :
    forLoop prefetch nextOf (.to head) (delIf p) fuel m () (frontOf l head) =
      .ok (m, (), .to head) := by
  obtain ⟨m', ⟨⟩, hloop, rfl, -⟩ := forLoop_rule nextOf (delIf p)
    (fun done todo m' _ => m' = m ∧ done ++ todo = l) prefetch
    (fun done todo m' _ hI => by
      obtain ⟨rfl, rfl⟩ := hI
      exact (follows_nextOf m').exists_front done h)
    (fun done x todo m' _ hI => by
      obtain ⟨rfl, rfl⟩ := hI
      refine ⟨m', (), ?_, ⟨rfl, by simp⟩, (follows_nextOf m').front h⟩
      rw [delIf, hno x (by simp)]
      rfl)
    [] (List.nodup_cons.mp hnd).1 ⟨rfl, rfl⟩ hfuel
  exact hloop

/-- **Plain deletion.**  A loop that is not the safe one comes to its end exactly if its body
    deletes nothing. -/
theorem listForEach_delIf_iff {m : Memory} {head : Addr} {l : List Addr}
    (h : (links m).Ring ↑(head :: l)) (hnd : (head :: l).Nodup) (p : Pointer → Bool) {fuel : Nat}
    (hfuel : l.length < fuel) :
    ((∃ r, listForEach fuel m () (.to head) (delIf p) = .ok r) ↔
        ∀ x ∈ l, p (.to x) = false) ∧
      ((∃ r, Internal.listForEach fuel m () (.to head) (delIf p) = .ok r) ↔
        ∀ x ∈ l, p (.to x) = false) := by
  have hloop : ∀ prefetch, (∃ r, forLoop prefetch nextOf (.to head) (delIf p) fuel m ()
      (frontOf l head) = .ok r) ↔ ∀ x ∈ l, p (.to x) = false := by
    intro prefetch
    constructor
    · rintro ⟨r, hr⟩ x hx
      by_contra hp
      obtain ⟨e, he⟩ := forLoop_delIf_stuck prefetch (swept_start (p := p) h) hnd
        ⟨x, hx, by simpa using hp⟩ fuel
      rw [hr] at he
      cases he
    · exact fun hno => ⟨_, forLoop_delIf_passes prefetch h hnd hno hfuel⟩
  have hnext := (follows_nextOf m).head h
  exact ⟨by rw [listForEach, hnext, ok_bind]; exact hloop true,
    by rw [Internal.listForEach, hnext, ok_bind]; exact hloop false⟩

/-- A loop that deletes the first of two entries does not. -/
theorem listForEach_delIf_iff_twoEntries :
    ¬∃ r, listForEach 3 twoEntries () (.to 0) (delIf (· == .to 1)) = .ok r := by
  have hfuel : [1, 2].length < 3 := by decide
  rw [(listForEach_delIf_iff twoEntries_ring (by decide) (· == .to 1) hfuel).1]
  decide

end SimpleHttp.PetList
