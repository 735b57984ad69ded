import SimpleHttp.PetHashtableEdits

namespace SimpleHttp.PetHashtable

open Lib

/-!
# Growth

* `drainSlot_spec`, `drain_spec` — the loops of `hashtable_expand` deal the entries out, one by
  one in the order of the slots, to the heads of the new buckets.
* `hashtableExpand_spec` — so the bindings of a key come to lie in the opposite order, and nothing
  else happens to them.
* `petHtableInsert_spec`, `petCreateHtable_spec` — the functions that call for memory.
-/

/-! ### The two loops -/

/-- Two tables that share the entries of a heap. -/
structure Moving (s : Rehash) (old new : Nat → Bucket) (n m : Nat) : Prop where
  rowOld : Row s.heap s.table old
  rowNew : Row s.heap s.newTable new
  lengthOld : s.table.length = n
  lengthNew : s.newTable.length = m
  nodup : (addrs (rows old n ++ rows new m)).Nodup

/-- The place of a cell in a table of `m` slots. -/
def place (newSize : UInt32) (x : Addr × Item) : Nat := bucketOf newSize x.2.hash

variable {s : Rehash} {old new : Nat → Bucket} {n : Nat} {newSize : UInt32}

/-- One turn of the inner loop. -/
theorem Moving.step {a : Addr} {x : Item} {l : Bucket} {i : Nat} {next : Ptr}
    (h : Moving s old new n newSize.toNat) (hi : i < n) (hold : old i = (a, x) :: l)
    (hc : s.heap.cells a = some ⟨x, next⟩) (hrest : Chain s.heap next l)
    (hj : place newSize (a, x) < newSize.toNat) :
    ∃ q, s.newTable[place newSize (a, x)]? = some q ∧
      Moving ⟨s.heap.write a ⟨x, q⟩, s.table.set i next,
          s.newTable.set (place newSize (a, x)) (some a)⟩
        (Function.update old i l)
        (Function.update new (place newSize (a, x)) ((a, x) :: new (place newSize (a, x)))) n
        newSize.toNat := by
  have hlen : place newSize (a, x) < s.newTable.length := by rwa [h.lengthNew]
  have hq := List.getElem?_eq_getElem hlen
  obtain ⟨pre, post, hrows, hupdate⟩ := rows_update old hi
  -- the cell is in its bucket and nowhere else
  have hnd := h.nodup
  rw [addrs_append, List.nodup_append] at hnd
  obtain ⟨hndOld, -, hdis⟩ := hnd
  have hmem : (a, x) ∈ old i := by
    rw [hold]
    exact List.mem_cons_self
  have hal : a ∉ addrs l := by
    have hnd := nodup_rows hndOld hi
    rw [hold] at hnd
    exact (List.nodup_cons.mp hnd).1
  have hold_ne : ∀ k < n, k ≠ i → a ∉ addrs (old k) := fun k hk hki =>
    rows_apart hndOld hi hk (Ne.symm hki) (mem_addrs hmem)
  have hnew_ne : ∀ k < newSize.toNat, a ∉ addrs (new k) := by
    intro k hk hin
    obtain ⟨y, hy, rfl⟩ := List.mem_map.mp hin
    exact hdis _ (mem_addrs (mem_rows.mpr ⟨i, hi, hmem⟩)) _
      (mem_addrs (mem_rows.mpr ⟨k, hk, hy⟩)) rfl
  refine ⟨_, hq, ?_, ?_, ?_, ?_, ?_⟩
  · refine Row.set (fun k p hk hp => (h.rowOld k p hp).write (hold_ne k ?_ hk) _) (hrest.write hal _)
    rw [← h.lengthOld]
    exact (List.getElem?_eq_some_iff.mp hp).1
  · refine Row.set (fun k p hk hp => (h.rowNew k p hp).write (hnew_ne k ?_) _) ?_
    · rw [← h.lengthNew]
      exact (List.getElem?_eq_some_iff.mp hp).1
    · exact ⟨rfl, _, Heap.cells_write_self hc _, (h.rowNew _ _ hq).write (hnew_ne _ hj) _⟩
  · exact List.length_set.trans h.lengthOld
  · exact List.length_set.trans h.lengthNew
  · have hperm : (rows (Function.update old i l) n ++ rows (Function.update new
        (place newSize (a, x)) ((a, x) :: new (place newSize (a, x)))) newSize.toNat).Perm
        (rows old n ++ rows new newSize.toNat) := by
      rw [hupdate, hrows, hold]
      refine (List.Perm.append_left _ (rows_push_perm hj _)).trans ?_
      refine List.perm_middle.trans ?_
      refine List.Perm.symm ?_
      simp only [List.append_assoc, List.cons_append]
      exact List.perm_middle
    exact (hperm.map Prod.fst).nodup_iff.mpr h.nodup

/-- One slot: its entries are dealt to the new slots, the first of the chain first. -/
theorem drainSlot_spec {l : Bucket} {i : Nat} (hpos : 0 < newSize.toNat)
    (h : Moving s old new n newSize.toNat) (hi : i < n) (hold : old i = l) {fuel : Nat}
    (hfuel : l.length < fuel) :
    ∃ s', drainSlot newSize i fuel s = .ok s' ∧
      Moving s' (Function.update old i []) (dealt (place newSize) l new) n newSize.toNat ∧
      s'.heap.next = s.heap.next ∧ ∀ a, s'.heap.Live a ↔ s.heap.Live a := by
  -- along the old chain: each turn takes its head over to the front of a new one
  induction l generalizing s old new fuel with
  | nil =>
    obtain ⟨fuel, rfl⟩ := Nat.exists_eq_succ_of_ne_zero (Nat.ne_of_gt hfuel)
    have hlen : i < s.table.length := by rwa [h.lengthOld]
    have hchain := h.rowOld i _ (List.getElem?_eq_getElem hlen)
    rw [hold] at hchain
    refine ⟨s, ?_, ?_, rfl, fun _ => Iff.rfl⟩
    · rw [drainSlot, slot_eq hlen, ok_bind, show s.table[i] = none from hchain]
      rfl
    · have hempty : Function.update old i [] = old := by rw [← hold, Function.update_eq_self]
      rw [hempty, dealt_nil]
      exact h
  | cons x l ih =>
    obtain ⟨a, x⟩ := x
    obtain ⟨fuel, rfl⟩ :=
      Nat.exists_eq_succ_of_ne_zero (Nat.ne_of_gt (Nat.zero_lt_of_lt hfuel))
    have hlen : i < s.table.length := by rwa [h.lengthOld]
    have hchain := h.rowOld i _ (List.getElem?_eq_getElem hlen)
    rw [hold] at hchain
    obtain ⟨hp, next, hc, hrest⟩ := hchain
    have hj : place newSize (a, x) < newSize.toNat := bucketOf_lt hpos _
    obtain ⟨q, hq, hmoving⟩ := h.step hi hold hc hrest hj
    obtain ⟨s', hrun, hmoving', hnext, hlive⟩ := ih hmoving (Function.update_self ..)
      (Nat.lt_of_succ_lt_succ hfuel)
    rw [Function.update_idem, ← dealt_cons] at hmoving'
    refine ⟨s', ?_, hmoving', hnext, fun b => (hlive b).trans (Heap.live_write ..)⟩
    have hslot : slot s.newTable (place newSize (a, x)) = .ok q := by rw [slot, hq]
    have hset := setSlot_eq (show place newSize (a, x) < s.newTable.length by rwa [h.lengthNew])
      (some a)
    rw [drainSlot, slot_eq hlen, ok_bind, hp]
    simp only [deref_eq hc, ok_bind, setSlot_eq hlen]
    rw [show (indexFor newSize x.hash).toNat = place newSize (a, x) from rfl, hslot, ok_bind, hset,
      ok_bind]
    exact hrun

/-- The buckets while the slots below `k` are empty already. -/
def emptied (old : Nat → Bucket) (k i : Nat) : Bucket := if i < k then [] else old i

/-- One slot more is empty. -/
theorem update_emptied (old : Nat → Bucket) (k : Nat) :
    Function.update (emptied old k) k [] = emptied old (k + 1) := by
  funext i
  by_cases hik : i = k
  · subst hik
    rw [Function.update_self, emptied, if_pos (Nat.lt_succ_self i)]
  · rw [Function.update_of_ne hik, emptied, emptied]
    simp only [Nat.lt_succ_iff_lt_or_eq, hik, or_false]

/-- **Rehashing.** -/
theorem drain_spec (hpos : 0 < newSize.toNat) (h : Moving s old new n newSize.toNat) :
    ∃ s', drain newSize s n = .ok s' ∧
      Moving s' (emptied old n) (dealt (place newSize) (rows old n) new) n newSize.toNat ∧
      s'.heap.next = s.heap.next ∧ ∀ a, s'.heap.Live a ↔ s.heap.Live a := by
  -- by induction on the number of slots that are done
  suffices hloop : ∀ k ≤ n, ∃ s', (List.range k).foldlM
      (fun s i => drainSlot newSize i (s.heap.next + 1) s) s = .ok s' ∧
      Moving s' (emptied old k) (dealt (place newSize) (rows old k) new) n newSize.toNat ∧
      s'.heap.next = s.heap.next ∧ ∀ a, s'.heap.Live a ↔ s.heap.Live a from hloop n (Nat.le_refl n)
  intro k
  induction k with
  | zero => exact fun _ => ⟨s, rfl, h, rfl, fun _ => Iff.rfl⟩
  | succ k ih =>
    intro hk
    obtain ⟨m, hrun, hmoving, hnext, hlive⟩ := ih (Nat.le_of_succ_le hk)
    have hkeep : emptied old k k = old k := if_neg (Nat.lt_irrefl k)
    have hfuel : (old k).length < m.heap.next + 1 := by
      have hlen : k < m.table.length := by rwa [hmoving.lengthOld]
      have hchain := hmoving.rowOld k _ (List.getElem?_eq_getElem hlen)
      have hnd := hmoving.nodup
      rw [addrs_append] at hnd
      rw [← hkeep]
      exact Nat.lt_succ_of_le (hchain.length_le (nodup_rows hnd.of_append_left hk))
    obtain ⟨s', hslot, hmoving', hnext', hlive'⟩ :=
      drainSlot_spec hpos hmoving hk hkeep hfuel
    rw [update_emptied, ← dealt_append, ← rows_succ] at hmoving'
    refine ⟨s', ?_, hmoving', hnext'.trans hnext, fun a => (hlive' a).trans (hlive a)⟩
    rw [List.range_succ, List.foldlM_append, hrun, ok_bind, List.foldlM_cons, hslot, ok_bind]
    rfl

/-! ### The larger table -/

section Expand

variable {s : State} {b : Nat → Bucket} {c : Callbacks} {d : Dictionary}

/-- `pet_htable_insert` counts an entry before it is there. -/
def State.withCount (s : State) (count : UInt32) : State :=
  { s with htable := { s.htable with entryCount := count } }

/-- The table has one of the listed sizes. -/
theorem Shape.index_lt {t : Htable} (h : Shape t) : t.primeIndex.toNat < primeTableLen :=
  (List.getElem?_eq_some_iff.mp h.prime).1

/-- The sizes and limits that a larger table gets. -/
theorem Shape.next {t : Htable} (h : Shape t) (hlast : t.primeIndex.toNat ≠ primeTableLen - 1) :
    (t.primeIndex + 1).toNat = t.primeIndex.toNat + 1 ∧
      ∃ newSize limit, primes[t.primeIndex.toNat + 1]? = some newSize ∧
        loadFactors[t.primeIndex.toNat + 1]? = some limit := by
  have hlt := h.index_lt
  have hlen : primeTableLen = 26 := rfl
  have hnext : t.primeIndex.toNat + 1 < primes.length := by
    show _ < primeTableLen
    omega
  have hnext' : t.primeIndex.toNat + 1 < loadFactors.length := hnext
  refine ⟨?_, _, _, List.getElem?_eq_getElem hnext, List.getElem?_eq_getElem hnext'⟩
  rw [UInt32.toNat_add]
  exact Nat.mod_eq_of_lt (by simp only [UInt32.toNat_one]; omega)

/-- A read of a slot that is there. -/
theorem slot_of_getElem? {α : Type} {array : List α} {i : Nat} {p : α} (h : array[i]? = some p) :
    slot array i = .ok p := by rw [slot, h]

/-- The slots that `memset` has cleared. -/
theorem Row.replicate (h : Heap HashEntry) (n : Nat) : Row h (List.replicate n none) fun _ => [] := by
  intro i p hp
  obtain ⟨hi, rfl⟩ := List.getElem?_eq_some_iff.mp hp
  rw [List.getElem_replicate]
  exact seg_nil.mpr rfl

theorem rows_nil (n : Nat) : rows (fun _ => ([] : Bucket)) n = [] :=
  List.flatMap_eq_nil_iff.mpr fun _ _ => rfl

/-- **Expansion.**  The entries are dealt out to the new buckets in the order of the old ones. -/
theorem hashtableExpand_spec (hs : Represents s b)
    (hlast : s.htable.primeIndex.toNat ≠ primeTableLen - 1) (count : UInt32) (realloc : Bool) :
    ∃ s' newSize, hashtableExpand (s.withCount count) true realloc = .ok (s'.withCount count, 0) ∧
      primes[s.htable.primeIndex.toNat + 1]? = some newSize ∧
      Represents s' (dealt (place newSize) (rows b s.htable.size) fun _ => []) ∧
      s'.htable.toCallbacks = s.htable.toCallbacks ∧ s'.released = s.released ∧
      s'.htable.tableLength = newSize ∧ s'.htable.entryCount = s.htable.entryCount ∧
      s'.htable.primeIndex.toNat = s.htable.primeIndex.toNat + 1 := by
  obtain ⟨hindex, newSize, limit, hprime, hlimit⟩ := hs.shape.next hlast
  have hpos : 0 < newSize.toNat := prime_pos (List.mem_of_getElem? hprime)
  -- before the loops, every entry is in the old table and none in the new one
  have hstart : Moving ⟨s.heap, s.htable.table, List.replicate newSize.toNat none⟩ b (fun _ => [])
      s.htable.size newSize.toNat :=
    { rowOld := hs.row
      rowNew := Row.replicate _ _
      lengthOld := hs.shape.length
      lengthNew := List.length_replicate
      nodup := by
        rw [rows_nil, List.append_nil]
        exact hs.nodup }
  obtain ⟨r, hdrain, hmoving, -, hlive⟩ := drain_spec hpos hstart
  have hperm : (rows (dealt (place newSize) (rows b s.htable.size) fun _ => [])
      newSize.toNat).Perm (rows b s.htable.size) := by
    have hdealt := rows_dealt_perm (f := place newSize) (c := fun _ => [])
      (l := rows b s.htable.size) fun x _ => bucketOf_lt hpos x.2.hash
    rwa [rows_nil, List.append_nil] at hdealt
  refine ⟨{ s with
      heap := r.heap
      htable := { s.htable with
        table := r.newTable
        tableLength := newSize
        loadLimit := limit
        primeIndex := s.htable.primeIndex + 1 } }, newSize, ?_, hprime, ?_, rfl, rfl, rfl,
    rfl, hindex⟩
  · -- `calloc` succeeds, so `realloc` is not called
    rw [hashtableExpand, State.withCount]
    dsimp only
    rw [if_neg hlast, hindex, slot_of_getElem? hprime, slot_of_getElem? hlimit]
    simp only [ok_bind, if_true]
    rw [show s.htable.tableLength.toNat = s.htable.size from rfl, hdrain]
    rfl
  · constructor
    · exact ⟨hmoving.lengthNew, by rw [hindex]; exact hprime, by rw [hindex]; exact hlimit⟩
    · exact hmoving.rowNew
    · -- an entry is dealt to the place of its hash
      intro j _ x hx
      rw [dealt, List.append_nil, List.mem_reverse, List.mem_filter] at hx
      obtain ⟨hx, hxj⟩ := hx
      have hhash := hs.hash_eq hx
      refine ⟨hhash, ?_⟩
      rw [← beq_iff_eq.mp hxj, place, hhash]
      rfl
    · exact (hperm.map Prod.fst).nodup_iff.mpr hs.nodup
    · intro a ha
      exact (hperm.map Prod.fst).mem_iff.mpr (hs.owned a ((hlive a).mp ha))
    · rw [hs.count]
      exact congrArg UInt32.ofNat hperm.length_eq.symm

/-- The largest table stays as it is. -/
theorem hashtableExpand_last (h : s.htable.primeIndex.toNat = primeTableLen - 1)
    (calloc realloc : Bool) : hashtableExpand s calloc realloc = .ok (s, -1) := by
  rw [hashtableExpand, if_pos h]
  rfl

/-- Without memory from `calloc`: plan B, which is undefined, or no growth at all. -/
theorem hashtableExpand_refused (hs : Shape s.htable)
    (hlast : s.htable.primeIndex.toNat ≠ primeTableLen - 1) (realloc : Bool) :
    hashtableExpand s false realloc =
      if realloc then .error .uninitialized else .ok (s, -1) := by
  obtain ⟨hindex, newSize, -, hprime, -⟩ := hs.next hlast
  rw [hashtableExpand]
  dsimp only
  rw [if_neg hlast, hindex, slot_of_getElem? hprime]
  rfl

/-- The bindings of a key come to lie in the opposite order. -/
theorem bindings_dealt (hs : Represents s b) {newSize : UInt32} (hpos : 0 < newSize.toNat) :
    ClassEq (same s.htable.toCallbacks) Prod.fst
      (bindings (dealt (place newSize) (rows b s.htable.size) fun _ => []) newSize.toNat)
      (bindings b s.htable.size).reverse := by
  intro key
  rw [bindings, List.filter_map, bindings, ← List.map_reverse, List.filter_map]
  congr 1
  refine filter_rows_dealt (j := bucketOf newSize (doHash s.htable key)) (bucketOf_lt hpos _)
    fun x hx hkey => ?_
  obtain ⟨hhash, -⟩ := Bool.and_eq_true_iff.mp hkey
  rw [place, hs.hash_eq hx, doHash, doHash, beq_iff_eq.mp hhash]
  rfl

/-! ### Insertion -/

/-- The table holds a dictionary that looks like `d`. -/
def Models (c : Callbacks) (s : State) (d : Dictionary) : Prop :=
  ∃ d₀, Holds c s d₀ ∧ Dictionary.Similar c d₀ d

/-- What holds a dictionary models it. -/
theorem Holds.models (h : Holds c s d) : Models c s d := ⟨d, h, .refl c d⟩

/-- A table models every dictionary that looks like one it models. -/
theorem Models.similar {d' : Dictionary} (h : Models c s d) (hd : Dictionary.Similar c d d') :
    Models c s d' := by
  obtain ⟨d₀, hholds, hsimilar⟩ := h
  exact ⟨d₀, hholds, hsimilar.trans hd⟩

theorem withCount_self (s : State) : s.withCount s.htable.entryCount = s := rfl

/-- **The entry.**  Behind the counting and the growth, the binding goes in front. -/
theorem insertEntry_spec (h : Holds c s d) (key value : UInt64) (entry : Bool) :
    Matched (Models c) (insertEntry (s.withCount (s.htable.entryCount + 1)) key value entry)
      (.ok (d.push key value entry)) := by
  cases entry with
  | false =>
    have hcount : s.htable.entryCount + 1 - 1 = s.htable.entryCount := UInt32.add_sub_cancel ..
    show Models c (s.withCount (s.htable.entryCount + 1 - 1)) d ∧ _
    rw [hcount, withCount_self]
    exact ⟨h.models, rfl⟩
  | true =>
    obtain ⟨b, hs, rfl, rfl⟩ := h
    obtain ⟨next, hslot, hset, b', hs', heq⟩ := prepend_spec hs key value
    have hrun : insertEntry (s.withCount (s.htable.entryCount + 1)) key value true = .ok
        (⟨s.heap.alloc ⟨⟨key, value, doHash s.htable key⟩, next⟩, { s.htable with
            table := s.htable.table.set (s.htable.home key) (some s.heap.next)
            entryCount := s.htable.entryCount + 1 }, s.released⟩, 0) := by
      show ((slot s.htable.table (s.htable.home key)) >>= fun next =>
        setSlot s.htable.table (s.htable.home key) (some s.heap.next) >>= fun table => _) = _
      rw [hslot, ok_bind, hset]
      rfl
    rw [hrun]
    exact ⟨⟨_, ⟨b', hs', rfl, rfl⟩, ⟨heq, rfl, rfl⟩⟩, rfl⟩

/-- The dictionary grows where the code asks for a larger table and there is one. -/
theorem grows_iff (hs : Represents s b) : (asDictionary s b).Grows ↔
    s.htable.loadLimit < s.htable.entryCount + 1 ∧
      s.htable.primeIndex.toNat ≠ primeTableLen - 1 := by
  have hlimit : loadFactors.getD s.htable.primeIndex.toNat 0 = s.htable.loadLimit := by
    rw [List.getD_eq_getElem?_getD, hs.shape.limit]
    rfl
  have hcount : UInt32.ofNat ((bindings b s.htable.size).length + 1) = s.htable.entryCount + 1 := by
    rw [bindings, List.length_map, UInt32.ofNat_add, hs.count]
    rfl
  show loadFactors.getD s.htable.primeIndex.toNat 0 <
    UInt32.ofNat ((bindings b s.htable.size).length + 1) ∧ _ ↔ _
  rw [hlimit, hcount]
  rfl

/-- A larger table holds the grown dictionary. -/
theorem hashtableExpand_grow (hs : Represents s b)
    (hlast : s.htable.primeIndex.toNat ≠ primeTableLen - 1) (realloc : Bool) :
    ∃ s', hashtableExpand (s.withCount (s.htable.entryCount + 1)) true realloc =
        .ok (s'.withCount (s'.htable.entryCount + 1), 0) ∧
      ∃ d, Holds s.htable.toCallbacks s' d ∧
        Dictionary.Similar s.htable.toCallbacks d (asDictionary s b).grow := by
  obtain ⟨s', newSize, hrun, hprime, hs', hfns, hreleased, hlength, hcount, hindex⟩ :=
    hashtableExpand_spec hs hlast (s.htable.entryCount + 1) realloc
  have hsize : s'.htable.size = newSize.toNat := congrArg UInt32.toNat hlength
  have hpos : 0 < newSize.toNat := prime_pos (List.mem_of_getElem? hprime)
  refine ⟨s', by rw [hrun, hcount], _, ⟨_, hs', hfns, rfl⟩, ?_, hindex, hreleased⟩
  rw [asDictionary, hsize]
  exact bindings_dealt hs hpos

/-- **Insertion.** -/
theorem petHtableInsert_spec (h : Holds c s d) (key value : UInt64) (mem : Memory) :
    Matched (Models c) (petHtableInsert s key value mem) (d.insert key value mem) := by
  have hkeep := insertEntry_spec h key value mem.entry
  obtain ⟨b, hs, rfl, rfl⟩ := h
  have hinsert : petHtableInsert s key value mem =
      if s.htable.loadLimit < s.htable.entryCount + 1 then
        hashtableExpand (s.withCount (s.htable.entryCount + 1)) mem.table mem.realloc >>= fun r =>
          insertEntry r.1 key value mem.entry
      else insertEntry (s.withCount (s.htable.entryCount + 1)) key value mem.entry := rfl
  rw [hinsert, Dictionary.insert]
  by_cases hfull : s.htable.loadLimit < s.htable.entryCount + 1
  · rw [if_pos hfull]
    by_cases hlast : s.htable.primeIndex.toNat = primeTableLen - 1
    · -- there is no larger table
      have hstays := hashtableExpand_last (s := s.withCount (s.htable.entryCount + 1)) hlast
      rw [if_neg fun hgrows => ((grows_iff hs).mp hgrows).2 hlast, hstays]
      exact hkeep
    · rw [if_pos ((grows_iff hs).mpr ⟨hfull, hlast⟩)]
      cases htable : mem.table with
      | true =>
        obtain ⟨s', hexpand, d', hholds, hsimilar⟩ := hashtableExpand_grow hs hlast mem.realloc
        rw [hexpand, ok_bind, if_pos rfl]
        obtain ⟨s'', hentry, hmodels⟩ := (insertEntry_spec hholds key value mem.entry).of_ok
        have hpush := hsimilar.push key value mem.entry
        rw [hentry]
        exact ⟨hmodels.similar hpush.1, hpush.2⟩
      | false =>
        have hshape : Shape (s.withCount (s.htable.entryCount + 1)).htable :=
          ⟨hs.shape.length, hs.shape.prime, hs.shape.limit⟩
        rw [hashtableExpand_refused hshape hlast, if_neg Bool.false_ne_true]
        cases mem.realloc with
        | true => exact rfl
        | false => exact hkeep
  · rw [if_neg hfull, if_neg fun hgrows => hfull ((grows_iff hs).mp hgrows).1]
    exact hkeep

/-! ### Creation -/

/-- The largest prime is above `2 ^ 30`. -/
theorem primeAbove_lt {minSize : UInt32} (h : minSize ≤ (1 : UInt32) <<< 30) :
    ∃ hlt : primeAbove minSize < primes.length, minSize < primes[primeAbove minSize] := by
  have hlt : primeAbove minSize < primes.length := by
    rw [primeAbove, List.findIdx_lt_length]
    exact ⟨1610612741, by decide, decide_eq_true (UInt32.lt_of_le_of_lt h (by decide))⟩
  exact ⟨hlt, of_decide_eq_true (List.findIdx_getElem (w := hlt))⟩

/-- **Creation.**  A table is empty, and longer than it was asked to be. -/
theorem petCreateHtable_spec {minSize : UInt32} (h : minSize ≤ (1 : UInt32) <<< 30)
    (c : Callbacks) :
    ∃ s, petCreateHtable minSize c.hashFn c.eqFn c.valFreeFn c.keyFreeFn true true =
        .ok (some s) ∧
      Holds c s ⟨[], primeAbove minSize, []⟩ ∧ minSize < s.htable.tableLength := by
  obtain ⟨hlt, hlarger⟩ := primeAbove_lt h
  -- there are as many limits as primes
  have hlt' : primeAbove minSize < loadFactors.length := hlt
  have hprime := List.getElem?_eq_getElem hlt
  have hlimit := List.getElem?_eq_getElem hlt'
  have hnat : (UInt32.ofNat (primeAbove minSize)).toNat = primeAbove minSize :=
    Nat.mod_eq_of_lt (Nat.lt_trans hlt (by decide))
  refine ⟨{
      heap := .empty
      htable :=
        { c with
          table := List.replicate primes[primeAbove minSize].toNat none
          tableLength := primes[primeAbove minSize]
          primeIndex := .ofNat (primeAbove minSize)
          entryCount := 0
          loadLimit := loadFactors[primeAbove minSize] }
      released := [] }, ?_, ⟨fun _ => [], ?_, rfl, ?_⟩, hlarger⟩
  · rw [petCreateHtable, if_neg (UInt32.not_lt.mpr h)]
    dsimp only
    rw [if_pos (show primeAbove minSize < primeTableLen from hlt), slot_of_getElem? hprime,
      slot_of_getElem? hlimit]
    rfl
  · constructor
    · exact ⟨List.length_replicate, by rw [hnat]; exact hprime, by rw [hnat]; exact hlimit⟩
    · exact Row.replicate _ _
    · exact fun _ _ _ hx => absurd hx List.not_mem_nil
    · rw [rows_nil]
      exact List.nodup_nil
    · rintro a ⟨⟩
    · rw [rows_nil]
      rfl
  · rw [asDictionary, bindings, rows_nil, hnat]
    rfl

end Expand

end SimpleHttp.PetHashtable
