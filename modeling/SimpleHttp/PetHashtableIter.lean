import SimpleHttp.PetHashtableRuns

namespace SimpleHttp.PetHashtable

open Lib

/-!
# Iterators

`Ahead b n it rest`: the iterator stands on the first entry of `rest`, and `rest` is what it has
not passed; behind the last entry `rest` is empty.

* `iterAdvance_start`, `iterAdvance_step`, `iterRemove_step` — one call.
* `iterate_spec` — the loop of a client who only looks sees every binding once, in the order of
  the slots, and ends with an iterator that can start again.
* `sweep_spec` — the loop of a client who removes some entries sees every binding once too, and
  removes exactly these.
* `iterSearch_remove` — to search with an iterator and remove there is `pet_htable_remove`.
-/

/-- The iterator is on the entry at `a`, in the bucket `i` behind `l₁`. -/
structure On (b : Nat → Bucket) (n : Nat) (it : Iter) (i : Nat) (l₁ : Bucket) (a : Addr) (x : Item)
    (l₂ : Bucket) : Prop where
  lt : i < n
  index : it.index.toNat = i
  bucket : b i = l₁ ++ (a, x) :: l₂
  entry : it.entry = some a
  parent : it.parent = parentOf l₁

/-- The iterator is on the first entry of what it has not passed, or at the end. -/
def Ahead (b : Nat → Bucket) (n : Nat) (it : Iter) : Bucket → Prop
  | [] => it.entry = none ∧ it.parent = none
  | (a, x) :: rest =>
      ∃ i l₁ l₂, On b n it i l₁ a x l₂ ∧ rest = l₂ ++ stretch b (i + 1) (n - (i + 1))

variable {s : State} {b : Nat → Bucket} {it : Iter} {n : Nat} {c : Callbacks} {d : Dictionary}

/-- All entries, cut at the iterator. -/
theorem On.rows_eq {i : Nat} {l₁ l₂ : Bucket} {a : Addr} {x : Item} (h : On b n it i l₁ a x l₂) :
    rows b n = (rows b i ++ l₁) ++ (a, x) :: (l₂ ++ stretch b (i + 1) (n - (i + 1))) := by
  rw [rows_cut b h.lt, h.bucket]
  simp only [List.append_assoc, List.cons_append]

/-! ### The next bucket that is not empty -/

/-- The slots from `j` on point to the first cells of their buckets. -/
def Heads (table : List Ptr) (b : Nat → Bucket) (j n : Nat) : Prop :=
  ∀ i, j ≤ i → i < n → table[i]? = some ((b i).head?.map Prod.fst)

/-- Every slot of a table points to the first cell of its bucket. -/
theorem Represents.heads (hs : Represents s b) (j : Nat) :
    Heads s.htable.table b j s.htable.size := by
  intro i _ hi
  obtain ⟨p, -, hp, hchain⟩ := hs.chain hi
  rw [hp, hchain.head_eq]

/-- An iterator behind `firstUsed`. -/
def arrive (index : UInt32) : Option (Nat × Addr) → Iter × Bool
  | some (i, a) => (⟨some a, none, .ofNat i⟩, true)
  | none => (⟨none, none, index⟩, false)

/-- **Slots.**  The loop over the slots stops at the first one in use, if there is one. -/
theorem firstUsed_spec {table : List Ptr} {j k n : Nat} (hn : n = j + k) (hmax : n < UInt32.size)
    (h : Heads table b j n) :
    ∃ r, firstUsed table k j = .ok r ∧ ∀ index,
      Ahead b n (arrive index r).1 (stretch b j k) ∧
        (arrive index r).2 = !(stretch b j k).isEmpty := by
  induction k generalizing j with
  | zero => exact ⟨none, rfl, fun _ => ⟨⟨rfl, rfl⟩, rfl⟩⟩
  | succ k ih =>
    have hslot : slot table j = .ok ((b j).head?.map Prod.fst) := by
      rw [slot, h j (Nat.le_refl j) (by omega)]
    rw [firstUsed, hslot, ok_bind, stretch_succ]
    cases hb : b j with
    | nil =>
      obtain ⟨r, hrun, hr⟩ := ih (j := j + 1) (by omega) fun i hi hlt => h i (by omega) hlt
      exact ⟨r, hrun, hr⟩
    | cons x l =>
      obtain ⟨a, x⟩ := x
      refine ⟨some (j, a), rfl, fun index => ⟨⟨j, [], l, ⟨by omega, ?_, hb, rfl, rfl⟩, ?_⟩, rfl⟩⟩
      · exact Nat.mod_eq_of_lt (show j < UInt32.size by omega)
      · rw [show n - (j + 1) = k by omega]
        rfl

/-! ### One step -/

/-- **Start.**  The first call goes to the first entry of all. -/
theorem iterAdvance_start (hs : Represents s b) (hentry : it.entry = none)
    (hparent : it.parent = none) :
    ∃ it', petHtableIterAdvance s it = .ok (it', !(rows b s.htable.size).isEmpty) ∧
      Ahead b s.htable.size it' (rows b s.htable.size) := by
  obtain ⟨r, hrun, hr⟩ := firstUsed_spec (n := s.htable.size) (Nat.zero_add _).symm
    (UInt32.toNat_lt_size _) (hs.heads 0)
  have hadvance : petHtableIterAdvance s it = .ok (arrive it.index r) := by
    obtain ⟨entry, parent, index⟩ := it
    cases hentry
    cases hparent
    rw [petHtableIterAdvance]
    dsimp only
    rw [show s.htable.tableLength.toNat = s.htable.size from rfl, hrun]
    cases r <;> rfl
  obtain ⟨hahead, hmore⟩ := hr it.index
  rw [← rows_eq_stretch] at hahead hmore
  exact ⟨_, by rw [hadvance, ← hmore], hahead⟩

/-- The step from an entry whose `next` and whose following slots are as they should be; an entry
    that has just been taken out of its bucket will do. -/
theorem iterAdvance_from {i : Nat} {l₂ : Bucket} {a : Addr} {x : Item} {next : Ptr}
    (hi : i < s.htable.size) (hindex : it.index.toNat = i) (hentry : it.entry = some a)
    (hc : s.heap.cells a = some ⟨x, next⟩) (hnext : next = l₂.head?.map Prod.fst)
    (hheads : Heads s.htable.table b (i + 1) s.htable.size) :
    ∃ it', petHtableIterAdvance s it =
        .ok (it', !(l₂ ++ stretch b (i + 1) (s.htable.size - (i + 1))).isEmpty) ∧
      match l₂ with
      | [] => Ahead b s.htable.size it' (stretch b (i + 1) (s.htable.size - (i + 1))) ∧
          it'.parent = none
      | (a', _) :: _ => it' = ⟨some a', some a, it.index⟩ := by
  obtain ⟨entry, parent, index⟩ := it
  subst hnext hentry
  -- the next entry of the chain, or the first one behind this slot
  have hstep : petHtableIterAdvance s ⟨some a, parent, index⟩ =
      match l₂.head?.map Prod.fst with
      | some next => .ok (⟨some next, some a, index⟩, true)
      | none =>
          if s.htable.tableLength ≤ index + 1 then .ok (arrive (index + 1) none)
          else (firstUsed s.htable.table (s.htable.tableLength.toNat - (index + 1).toNat)
            (index + 1).toNat).map (arrive s.htable.tableLength) := by
    rw [petHtableIterAdvance]
    dsimp only
    rw [deref_eq hc, ok_bind]
    dsimp only
    cases l₂.head?.map Prod.fst with
    | some next => rfl
    | none =>
      dsimp only
      split
      · rfl
      · cases firstUsed s.htable.table (s.htable.tableLength.toNat - (index + 1).toNat)
            (index + 1).toNat with
        | error e => rfl
        | ok r => cases r <;> rfl
  rw [hstep]
  cases l₂ with
  | cons y l => exact ⟨_, rfl, rfl⟩
  | nil =>
    -- `index + 1` does not wrap: it is at most the number of slots
    have hmax : s.htable.size < UInt32.size := UInt32.toNat_lt_size _
    have hj : (index + 1).toNat = i + 1 := by
      rw [UInt32.toNat_add, show index.toNat = i from hindex]
      exact Nat.mod_eq_of_lt (show i + 1 < UInt32.size by omega)
    have hle : s.htable.tableLength ≤ index + 1 ↔ s.htable.size ≤ i + 1 := by
      rw [UInt32.le_iff_toNat_le, hj]
      rfl
    rw [List.nil_append]
    dsimp only [List.head?_nil, Option.map_none]
    by_cases hend : s.htable.size ≤ i + 1
    · rw [if_pos (hle.mpr hend), show s.htable.size - (i + 1) = 0 by omega]
      exact ⟨_, rfl, ⟨rfl, rfl⟩, rfl⟩
    · rw [if_neg fun h => hend (hle.mp h), hj]
      obtain ⟨r, hrun, hr⟩ := firstUsed_spec (k := s.htable.size - (i + 1)) (by omega) hmax hheads
      obtain ⟨hahead, hmore⟩ := hr s.htable.tableLength
      rw [show s.htable.tableLength.toNat = s.htable.size from rfl, hrun]
      exact ⟨_, by rw [← hmore]; rfl, hahead, by cases r <;> rfl⟩

/-- The entry that the iterator is on, in the heap. -/
theorem On.cell (hs : Represents s b) {i : Nat} {l₁ l₂ : Bucket} {a : Addr} {x : Item}
    (h : On b s.htable.size it i l₁ a x l₂) :
    s.heap.cells a = some ⟨x, l₂.head?.map Prod.fst⟩ := by
  obtain ⟨p, -, -, hchain⟩ := hs.chain h.lt
  rw [h.bucket] at hchain
  obtain ⟨r, -, -, next, hc, hrest⟩ := seg_append.mp hchain
  rw [hc, hrest.head_eq]

/-- **Step.**  Every other call goes one entry further. -/
theorem iterAdvance_step (hs : Represents s b) {a : Addr} {x : Item} {rest : Bucket}
    (h : Ahead b s.htable.size it ((a, x) :: rest)) :
    ∃ it', petHtableIterAdvance s it = .ok (it', !rest.isEmpty) ∧
      Ahead b s.htable.size it' rest := by
  obtain ⟨i, l₁, l₂, hon, rfl⟩ := h
  obtain ⟨it', hrun, hit⟩ :=
    iterAdvance_from hon.lt hon.index hon.entry (hon.cell hs) rfl (hs.heads (i + 1))
  refine ⟨it', hrun, ?_⟩
  cases l₂ with
  | nil => exact hit.1
  | cons y l =>
    -- one entry further in the same bucket
    obtain ⟨a', x'⟩ := y
    refine ⟨i, l₁ ++ [(a, x)], l, ⟨hon.lt, ?_, ?_, ?_, ?_⟩, rfl⟩
    · rw [hit, ← hon.index]
    · rw [hon.bucket, List.append_assoc, List.singleton_append]
    · rw [hit]
    · rw [hit]
      simp [parentOf]

/-- What the caller is shown. -/
theorem iterGet (hs : Represents s b) {a : Addr} {x : Item} {rest : Bucket}
    (h : Ahead b s.htable.size it ((a, x) :: rest)) :
    petHtableGetIterKey s it = .ok x.key ∧ petHtableGetIterValue s it = .ok x.value := by
  obtain ⟨i, l₁, l₂, hon, -⟩ := h
  have hc := hon.cell hs
  rw [petHtableGetIterKey, petHtableGetIterValue, hon.entry, deref_eq hc]
  exact ⟨rfl, rfl⟩

/-! ### Removal at the iterator -/

/-- The state behind the removal of an entry: what `setLink` has left, and the rest of what
    `pet_htable_cond_remove` and `pet_htable_iter_remove` do. -/
def unlinked (s : State) (heap : Heap HashEntry) (i : Nat) (p : Ptr) (a : Addr) (key : UInt64) :
    State where
  heap := heap.free a
  htable := { s.htable with
    table := s.htable.table.set i p
    entryCount := s.htable.entryCount - 1 }
  released := if s.htable.keyFreeFn then s.released ++ [.key key] else s.released

/-- A removal: unlinked in its slot, freed, and the iterator one entry further. -/
theorem iterRemove_run (hs : Represents s b) {i : Nat} {l₁ l₂ : Bucket} {a : Addr} {x : Item}
    (hon : On b s.htable.size it i l₁ a x l₂) :
    ∃ heap p it', setLink s i (parentOf l₁) (l₂.head?.map Prod.fst) =
        .ok { s with heap, htable := { s.htable with table := s.htable.table.set i p } } ∧
      petHtableIterRemove s it = .ok (unlinked s heap i p a x.key, it',
        !(l₂ ++ stretch b (i + 1) (s.htable.size - (i + 1))).isEmpty) ∧
      Represents (unlinked s heap i p a x.key) (Function.update b i (l₁ ++ l₂)) ∧
      Ahead (Function.update b i (l₁ ++ l₂)) s.htable.size it'
        (l₂ ++ stretch b (i + 1) (s.htable.size - (i + 1))) := by
  have hc := hon.cell hs
  obtain ⟨heap, p, hlink, hchain, hc', hlive, hcells⟩ := setLink_chain hs hon.lt hon.bucket hc
  have hgone : Represents (unlinked s heap i p a x.key) (Function.update b i (l₁ ++ l₂)) :=
    hs.unlink hon.lt hon.bucket hchain hlive hcells _
  have hstretch : stretch (Function.update b i (l₁ ++ l₂)) (i + 1) (s.htable.size - (i + 1)) =
      stretch b (i + 1) (s.htable.size - (i + 1)) :=
    stretch_congr fun j hj _ => Function.update_of_ne (Nat.ne_of_gt hj) ..
  -- the entry is out of its bucket when the iterator leaves it, and freed only then
  obtain ⟨it', hrun, hit⟩ := iterAdvance_from (s := { unlinked s heap i p a x.key with heap })
    (b := Function.update b i (l₁ ++ l₂)) hon.lt hon.index hon.entry hc' rfl
    (hgone.heads (i + 1))
  refine ⟨heap, p, if it'.parent = some a then { it' with parent := parentOf l₁ } else it', hlink,
    ?_, hgone, ?_⟩
  · dsimp only [unlinked] at hrun
    rw [petHtableIterRemove, hon.entry, deref_eq hc, ok_bind]
    dsimp only
    rw [hon.index, hon.parent, hlink, ok_bind, releaseKey_eq, ← hstretch]
    dsimp only
    rw [hrun]
    rfl
  · cases l₂ with
    | nil =>
      rw [if_neg (by rw [hit.2]; nofun), ← hstretch]
      exact hit.1
    | cons y l =>
      -- the parent is the entry that is gone, and is put right
      obtain ⟨a', x'⟩ := y
      rw [if_pos (by rw [hit]), hit]
      exact ⟨i, l₁, l, ⟨hon.lt, hon.index, Function.update_self .., rfl, rfl⟩,
        by rw [hstretch]; rfl⟩

/-- **Removal.**  One entry goes, and what the iterator has not passed stays. -/
theorem iterRemove_step (hs : Represents s b) {a : Addr} {x : Item} {rest : Bucket}
    (h : Ahead b s.htable.size it ((a, x) :: rest)) :
    ∃ s' it' b', petHtableIterRemove s it = .ok (s', it', !rest.isEmpty) ∧ Represents s' b' ∧
      s'.htable.size = s.htable.size ∧ s'.htable.toCallbacks = s.htable.toCallbacks ∧
      s'.htable.primeIndex = s.htable.primeIndex ∧
      s'.released = (if s.htable.keyFreeFn then s.released ++ [.key x.key] else s.released) ∧
      Ahead b' s.htable.size it' rest ∧
      ∃ done, rows b s.htable.size = done ++ (a, x) :: rest ∧
        rows b' s.htable.size = done ++ rest := by
  obtain ⟨i, l₁, l₂, hon, rfl⟩ := h
  obtain ⟨heap, p, it', -, hremove, hgone, hahead⟩ := iterRemove_run hs hon
  refine ⟨_, it', _, hremove, hgone, rfl, rfl, rfl, rfl, hahead, rows b i ++ l₁, hon.rows_eq, ?_⟩
  rw [rows_cut _ hon.lt, Function.update_self]
  simp only [List.append_assoc]
  congr 1
  · exact rows_congr fun j hj => Function.update_of_ne (Nat.ne_of_lt hj) ..
  · congr 2
    exact stretch_congr fun j hj _ => Function.update_of_ne (Nat.ne_of_gt hj) ..

/-! ### The loops of a client -/

/-- `while (pet_htable_iter_advance(iter))`, with a look at every entry. -/
def iterate (s : State) : Nat → Iter → List Binding → Except Fault (Iter × List Binding)
  | 0, _, _ => .error .outOfFuel
  | fuel + 1, it, seen => do
      let (it, more) ← petHtableIterAdvance s it
      if !more then return (it, seen)
      let key ← petHtableGetIterKey s it
      let value ← petHtableGetIterValue s it
      iterate s fuel it (seen ++ [(key, value)])

/-- The loop around `pet_htable_iter_remove`, with a look at every entry: what passes the test goes,
    what does not stays. -/
def sweep (drop : UInt64 → UInt64 → Bool) :
    Nat → State → Iter → Bool → List Binding → Except Fault (State × Iter × List Binding)
  | 0, _, _, _, _ => .error .outOfFuel
  | fuel + 1, s, it, more, seen => do
      if !more then return (s, it, seen)
      let key ← petHtableGetIterKey s it
      let value ← petHtableGetIterValue s it
      let seen := seen ++ [(key, value)]
      if drop key value then
        let (s, it, more) ← petHtableIterRemove s it
        sweep drop fuel s it more seen
      else
        let (it, more) ← petHtableIterAdvance s it
        sweep drop fuel s it more seen

/-- An iterator that starts at the first entry. -/
structure Iter.Fresh (it : Iter) : Prop where
  entry : it.entry = none
  parent : it.parent = none

/-- A new iterator does. -/
theorem petHtableCreateIter_fresh (s : State) :
    ∃ it, petHtableCreateIter s true = some it ∧ it.Fresh :=
  ⟨⟨none, none, s.htable.tableLength⟩, rfl, rfl, rfl⟩

/-- The loop of a client who only looks, from the entry on that the next call goes to. -/
theorem iterate_from (hs : Represents s b) {rest : Bucket} {more : Iter}
    (hmore : ∃ it, petHtableIterAdvance s more = .ok (it, !rest.isEmpty) ∧
      Ahead b s.htable.size it rest) (seen : List Binding) {fuel : Nat}
    (hfuel : rest.length < fuel) :
    ∃ it', iterate s fuel more seen = .ok (it', seen ++ rest.map fun x => x.2.binding) ∧
      it'.entry = none ∧ it'.parent = none := by
  induction rest generalizing more seen fuel with
  | nil =>
    obtain ⟨fuel, rfl⟩ := Nat.exists_eq_succ_of_ne_zero (Nat.ne_of_gt hfuel)
    obtain ⟨it, hrun, hahead⟩ := hmore
    refine ⟨it, ?_, hahead⟩
    rw [iterate, hrun, List.map_nil, List.append_nil]
    rfl
  | cons x rest ih =>
    obtain ⟨a, x⟩ := x
    obtain ⟨fuel, rfl⟩ :=
      Nat.exists_eq_succ_of_ne_zero (Nat.ne_of_gt (Nat.zero_lt_of_lt hfuel))
    obtain ⟨it, hrun, hahead⟩ := hmore
    obtain ⟨hkey, hvalue⟩ := iterGet hs hahead
    obtain ⟨it', hiterate, hend⟩ := ih (iterAdvance_step hs hahead) (seen ++ [x.binding])
      (Nat.lt_of_succ_lt_succ hfuel)
    refine ⟨it', ?_, hend⟩
    have hseen : seen ++ ((a, x) :: rest).map (fun x => x.2.binding) =
        seen ++ [x.binding] ++ rest.map fun x => x.2.binding := by simp
    rw [iterate, hrun, ok_bind, hseen]
    simp only [List.isEmpty_cons, Bool.not_false, Bool.not_true, hkey, hvalue, ok_bind]
    exact hiterate

/-- **Iteration.**  The loop starts with a new iterator, or with one that another loop has left. -/
theorem iterate_spec (h : Holds c s d) {fuel : Nat} (hfuel : d.bindings.length < fuel) :
    (∃ it, petHtableCreateIter s true = some it ∧ it.Fresh) ∧
      ∀ it : Iter, it.Fresh →
        ∃ it', iterate s fuel it [] = .ok (it', d.bindings) ∧ it'.Fresh := by
  obtain ⟨b, hs, rfl, rfl⟩ := h
  have hlength : (rows b s.htable.size).length < fuel := by
    rwa [asDictionary, bindings, List.length_map] at hfuel
  refine ⟨petHtableCreateIter_fresh s, fun it hit => ?_⟩
  obtain ⟨it', hrun, hend⟩ :=
    iterate_from hs (iterAdvance_start hs hit.entry hit.parent) [] hlength
  exact ⟨it', hrun, hend.1, hend.2⟩

/-- Five bindings for three slots: 85, 129 and 134 share one. -/
def chainedInserts : List Binding := [(9, 1), (85, 2), (129, 3), (134, 4), (45, 5)]

/-- The table of these five entries. -/
def chained : Except Fault (State × List (Op × Answer)) := do
  match ← petCreateHtable 16 petHashPtr petCmpPtr true true true true with
  | none => .error .null
  | some s => run (logged exec) (s, []) (chainedInserts.map inserted)

/-- Its entries, in the order of the slots and chains. -/
def chainedBindings : List Binding := [(9, 1), (134, 4), (129, 3), (85, 2), (45, 5)]

/-- The order is that in which the loop of a client finds the entries. -/
theorem chained_holds :
    ∃ s log, chained = .ok (s, log) ∧ Holds ptrCallbacks s ⟨chainedBindings, 0, []⟩ := by
  have hsize : (16 : UInt32) ≤ (1 : UInt32) <<< 30 := by decide
  obtain ⟨s₀, hcreate, hnew, -⟩ := petCreateHtable_spec hsize ptrCallbacks
  have hlist : (run (logged (Dictionary.exec ptrCallbacks)) (⟨[], primeAbove 16, []⟩, [])
      (chainedInserts.map inserted)).map
        (fun r => (r.1.bindings.length, r.1.primeIndex, r.1.released)) = .ok (5, 0, []) := by
    decide +kernel
  obtain ⟨⟨d, log⟩, hrun, hd⟩ := exists_of_map_eq_ok hlist
  obtain ⟨hlength, hindex, hreleased⟩ :
      d.bindings.length = 5 ∧ d.primeIndex = 0 ∧ d.released = [] := by simpa using hd
  obtain ⟨s, hs, d₀, ⟨b, hb, hfns, rfl⟩, hsimilar⟩ := hnew.models.run eqFn_ptrCallbacks hrun
  have hchained : chained = .ok (s, log) := by
    change (petCreateHtable 16 ptrCallbacks.hashFn ptrCallbacks.eqFn ptrCallbacks.valFreeFn
      ptrCallbacks.keyFreeFn true true >>= _) = _
    rw [hcreate]
    exact hs
  have hfuel : (rows b s.htable.size).length < 6 := by
    have heq : (bindings b s.htable.size).length = 5 :=
      (hsimilar.length_eq eqFn_ptrCallbacks).trans hlength
    rw [bindings, List.length_map] at heq
    omega
  have hstart : (⟨none, none, 53⟩ : Iter).Fresh := ⟨rfl, rfl⟩
  obtain ⟨it', hiterate, -⟩ :=
    iterate_from hb (iterAdvance_start hb hstart.entry hstart.parent) [] hfuel
  have hseen : (chained >>= fun r => (iterate r.1 6 ⟨none, none, 53⟩ []).map Prod.snd) =
      .ok chainedBindings := by
    decide +kernel
  rw [hchained, ok_bind, hiterate] at hseen
  refine ⟨s, log, hchained, b, hb, hfns, ?_⟩
  rw [asDictionary, Dictionary.mk.injEq]
  exact ⟨Except.ok.inj hseen, hsimilar.primeIndex.trans hindex, hsimilar.released.trans hreleased⟩

/-- The loop over `chained`. -/
theorem iterate_spec_chained :
    ∃ s log it, chained = .ok (s, log) ∧ petHtableCreateIter s true = some it ∧
      ∃ it', iterate s 6 it [] = .ok (it', [(9, 1), (134, 4), (129, 3), (85, 2), (45, 5)]) ∧
        it'.Fresh := by
  obtain ⟨s, log, hs, hholds⟩ := chained_holds
  obtain ⟨⟨it, hit, hfresh⟩, hrun⟩ :=
    iterate_spec hholds (show chainedBindings.length < 6 by decide)
  exact ⟨s, log, it, hs, hit, hrun it hfresh⟩

/-- What has been decided about the entries of `rest`, once the loop is behind them. -/
structure Swept (drop : UInt64 → UInt64 → Bool) (s : State) (done rest : Bucket) (s' : State)
    (it' : Iter) : Prop where
  represents : ∃ b', Represents s' b' ∧ rows b' s'.htable.size =
    done ++ rest.filter fun x => !drop x.2.key x.2.value
  callbacks : s'.htable.toCallbacks = s.htable.toCallbacks
  primeIndex : s'.htable.primeIndex = s.htable.primeIndex
  released : s'.released = s.released ++ if s.htable.keyFreeFn then
    (rest.filter fun x => drop x.2.key x.2.value).map fun x => .key x.2.key else []
  entry : it'.entry = none
  parent : it'.parent = none

/-- The sweep, from the entry on that the iterator is on. -/
theorem sweep_from (drop : UInt64 → UInt64 → Bool) (hs : Represents s b) {done rest : Bucket}
    (hrows : rows b s.htable.size = done ++ rest) (hahead : Ahead b s.htable.size it rest)
    (seen : List Binding) {fuel : Nat} (hfuel : rest.length < fuel) :
    ∃ s' it', sweep drop fuel s it (!rest.isEmpty) seen =
        .ok (s', it', seen ++ rest.map fun x => x.2.binding) ∧
      Swept drop s done rest s' it' := by
  -- `done` has been looked at and kept; the iterator stands at the head of `rest`
  induction rest generalizing s b it done seen fuel with
  | nil =>
    obtain ⟨fuel, rfl⟩ := Nat.exists_eq_succ_of_ne_zero (Nat.ne_of_gt hfuel)
    refine ⟨s, it, ?_, ⟨b, hs, hrows⟩, rfl, rfl, by split <;> simp, hahead.1, hahead.2⟩
    rw [List.map_nil, List.append_nil]
    rfl
  | cons x rest ih =>
    obtain ⟨a, x⟩ := x
    obtain ⟨fuel, rfl⟩ :=
      Nat.exists_eq_succ_of_ne_zero (Nat.ne_of_gt (Nat.zero_lt_of_lt hfuel))
    obtain ⟨hkey, hvalue⟩ := iterGet hs hahead
    have hstep : sweep drop (fuel + 1) s it true seen =
        if drop x.key x.value then
          petHtableIterRemove s it >>= fun r =>
            sweep drop fuel r.1 r.2.1 r.2.2 (seen ++ [x.binding])
        else petHtableIterAdvance s it >>= fun r =>
          sweep drop fuel s r.1 r.2 (seen ++ [x.binding]) := by
      rw [sweep, hkey, hvalue]
      rfl
    have hseen : seen ++ ((a, x) :: rest).map (fun x => x.2.binding) =
        seen ++ [x.binding] ++ rest.map fun x => x.2.binding := by simp
    rw [List.isEmpty_cons, Bool.not_false, hstep, hseen]
    cases hdrop : drop x.key x.value with
    | true =>
      obtain ⟨s₁, it₁, b₁, hrun, hs₁, hsize, hfns, hindex, hreleased, hahead₁, done₁, hrows₁,
        hrows₁'⟩ := iterRemove_step hs hahead
      -- the removal leaves what the loop has passed as it is
      obtain rfl : done = done₁ := List.append_cancel_right (hrows.symm.trans hrows₁)
      rw [← hsize] at hahead₁ hrows₁'
      obtain ⟨s', it', hsweep, hswept⟩ :=
        ih hs₁ hrows₁' hahead₁ (seen ++ [x.binding]) (Nat.lt_of_succ_lt_succ hfuel)
      refine ⟨s', it', ?_, ?_, hswept.callbacks.trans hfns, hswept.primeIndex.trans hindex, ?_,
        hswept.entry, hswept.parent⟩
      · rw [if_pos rfl, hrun, ok_bind]
        exact hsweep
      · rw [List.filter_cons_of_neg (by simp [hdrop])]
        exact hswept.represents
      · have hfree : s₁.htable.keyFreeFn = s.htable.keyFreeFn := congrArg Callbacks.keyFreeFn hfns
        rw [hswept.released, hreleased, hfree, List.filter_cons_of_pos (by simp [hdrop])]
        cases s.htable.keyFreeFn with
        | true => simp
        | false => rfl
    | false =>
      obtain ⟨it₁, hrun, hahead₁⟩ := iterAdvance_step hs hahead
      rw [← List.singleton_append, ← List.append_assoc] at hrows
      obtain ⟨s', it', hsweep, hswept⟩ :=
        ih hs hrows hahead₁ (seen ++ [x.binding]) (Nat.lt_of_succ_lt_succ hfuel)
      refine ⟨s', it', ?_, ?_, hswept.callbacks, hswept.primeIndex, ?_, hswept.entry,
        hswept.parent⟩
      · rw [if_neg Bool.false_ne_true, hrun, ok_bind]
        exact hsweep
      · rw [List.filter_cons_of_pos (by simp [hdrop]), ← List.singleton_append,
          ← List.append_assoc]
        exact hswept.represents
      · rw [List.filter_cons_of_neg (by simp [hdrop])]
        exact hswept.released

/-- The dictionary without some bindings. -/
def Dictionary.without (c : Callbacks) (d : Dictionary) (drop : UInt64 → UInt64 → Bool) :
    Dictionary :=
  { d with
    bindings := d.bindings.filter fun x => !drop x.1 x.2
    released := d.released ++
      if c.keyFreeFn then (d.bindings.filter fun x => drop x.1 x.2).map fun x => .key x.1 else [] }

/-- **Sweeping.**  The loop looks at every binding, in the order of the slots and chains, and takes
    out exactly those that pass the test. -/
theorem sweep_spec (h : Holds c s d) (drop : UInt64 → UInt64 → Bool) {fuel : Nat}
    (hfuel : d.bindings.length < fuel) :
    (∃ it, petHtableCreateIter s true = some it ∧ it.Fresh) ∧
      ∀ it : Iter, it.Fresh → ∃ it₁ more s' it', petHtableIterAdvance s it = .ok (it₁, more) ∧
        sweep drop fuel s it₁ more [] = .ok (s', it', d.bindings) ∧
        Holds c s' (d.without c drop) ∧ it'.Fresh := by
  obtain ⟨b, hs, rfl, rfl⟩ := h
  have hlength : (rows b s.htable.size).length < fuel := by
    rwa [asDictionary, bindings, List.length_map] at hfuel
  refine ⟨petHtableCreateIter_fresh s, fun it hit => ?_⟩
  obtain ⟨it₁, hrun, hahead⟩ := iterAdvance_start hs hit.entry hit.parent
  obtain ⟨s', it', hsweep, ⟨b', hs', hrows⟩, hfns, hindex, hreleased, hend, hend'⟩ :=
    sweep_from drop hs (List.nil_append _).symm hahead [] hlength
  refine ⟨it₁, _, s', it', hrun, hsweep, ⟨b', hs', hfns, ?_⟩, hend, hend'⟩
  have hfilter : ∀ p : UInt64 → UInt64 → Bool,
      (bindings b s.htable.size).filter (fun x => p x.1 x.2) =
        ((rows b s.htable.size).filter fun x => p x.2.key x.2.value).map fun x => x.2.binding :=
    fun p => List.filter_map
  rw [asDictionary, Dictionary.without, Dictionary.mk.injEq]
  refine ⟨?_, congrArg UInt32.toNat hindex, ?_⟩
  · rw [bindings, hrows, List.nil_append]
    exact (hfilter fun key value => !drop key value).symm
  · rw [hreleased]
    congr 1
    split
    · show _ = ((bindings b s.htable.size).filter fun x => drop x.1 x.2).map _
      rw [hfilter drop, List.map_map]
      rfl
    · rfl

/-- Of `chained`, the odd values go: the one entry of a slot, the middle of a chain, and another
    slot's entry. -/
theorem sweep_spec_chained :
    ∃ s log it, chained = .ok (s, log) ∧ petHtableCreateIter s true = some it ∧
      ∃ it₁ more s' it', petHtableIterAdvance s it = .ok (it₁, more) ∧
        sweep (fun _ value => value % 2 == 1) 6 s it₁ more [] =
          .ok (s', it', [(9, 1), (134, 4), (129, 3), (85, 2), (45, 5)]) ∧
        Holds ptrCallbacks s' ⟨[(134, 4), (85, 2)], 0, [.key 9, .key 129, .key 45]⟩ ∧
        it'.Fresh := by
  obtain ⟨s, log, hs, hholds⟩ := chained_holds
  obtain ⟨⟨it, hit, hfresh⟩, hrun⟩ := sweep_spec hholds (fun _ value => value % 2 == 1)
    (show chainedBindings.length < 6 by decide)
  exact ⟨s, log, it, hs, hit, hrun it hfresh⟩

/-- **Search and removal.**  What `pet_htable_iter_search` finds, `pet_htable_iter_remove` takes
    out as `pet_htable_remove` does; where it finds nothing, there is nothing to take out. -/
theorem iterSearch_remove (h : Holds c s d) (key : UInt64) (it : Iter) :
    (d.find? c key = none ∧ petHtableIterSearch s it key = .ok (it, false) ∧
        petHtableRemove s key = .ok (s, 0)) ∨
      ∃ x, d.find? c key = some x ∧
        ∃ it' s' it'' more, petHtableIterSearch s it key = .ok (it', true) ∧
          petHtableGetIterKey s it' = .ok x.1 ∧ petHtableGetIterValue s it' = .ok x.2 ∧
          petHtableIterRemove s it' = .ok (s', it'', more) ∧
          petHtableRemove s key = .ok (s', x.2) := by
  obtain ⟨b, hs, rfl, rfl⟩ := h
  rcases find_cases hs key with ⟨hno, hfind⟩ | ⟨pre, l₁, a, x, l₂, post, n, hm, hc, hfind⟩
  · left
    rw [petHtableIterSearch, petHtableRemove, petHtableCondRemove, hfind]
    exact ⟨find?_eq_none hno, rfl, rfl⟩
  · right
    have hi := hs.shape.home_lt key
    have hindex : (UInt32.ofNat (s.htable.home key)).toNat = s.htable.home key :=
      Nat.mod_eq_of_lt (Nat.lt_trans hi (UInt32.toNat_lt_size _))
    have hon : On b s.htable.size ⟨some a, parentOf l₁, .ofNat (s.htable.home key)⟩
        (s.htable.home key) l₁ a x l₂ := ⟨hi, hindex, hm.bucket, rfl, rfl⟩
    obtain ⟨heap, p, it'', hlink, hremove, -⟩ := iterRemove_run hs hon
    refine ⟨x.binding, hm.find?_eq, _, _, it'', _, ?_, ?_, ?_, hremove, ?_⟩
    · rw [petHtableIterSearch, hfind]
      rfl
    · rw [petHtableGetIterKey, deref_eq hc]
      rfl
    · rw [petHtableGetIterValue, deref_eq hc]
      rfl
    · rw [hon.cell hs] at hc
      cases hc
      rw [petHtableRemove, petHtableCondRemove, hfind]
      simp only [ok_bind, releaseKey_eq]
      rw [if_neg (by simp), hlink]
      rfl

/-- In `chained`, 129 is found in the middle of its chain, behind 134. -/
theorem iterSearch_remove_chained :
    ∃ s log, chained = .ok (s, log) ∧ ∃ it' s' it'' more,
      petHtableIterSearch s ⟨none, none, 53⟩ 129 = .ok (it', true) ∧
        petHtableGetIterValue s it' = .ok 3 ∧
        petHtableIterRemove s it' = .ok (s', it'', more) ∧
        petHtableRemove s 129 = .ok (s', 3) := by
  obtain ⟨s, log, hs, hholds⟩ := chained_holds
  have hfind : (⟨chainedBindings, 0, []⟩ : Dictionary).find? ptrCallbacks 129 = some (129, 3) := by
    decide +kernel
  rcases iterSearch_remove hholds 129 ⟨none, none, 53⟩ with ⟨hnone, -⟩ |
    ⟨x, hx, it', s', it'', more, hsearch, -, hvalue, hremove, hremove'⟩
  · rw [hfind] at hnone
    cases hnone
  · rw [hfind] at hx
    cases hx
    exact ⟨s, log, hs, it', s', it'', more, hsearch, hvalue, hremove, hremove'⟩

end SimpleHttp.PetHashtable
