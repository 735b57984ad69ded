import SimpleHttp.PetHashtableDictionary

namespace SimpleHttp.PetHashtable

open Lib

/-!
# What a hash table holds

`Represents s b`: the slots of the table point to the chains `b`, every entry is in the bucket of
its hash, and the heap holds these entries and no others.

* `bindings` — the entries as a list, and `bound` — those that a key is bound to.
* `find_cases` — the loop along a bucket finds the first entry that the key is bound to.
-/

/-- The cells of a bucket. -/
abbrev Bucket := List (Addr × Item)

/-- The bucket that a hash belongs to. -/
def bucketOf (tableLength : UInt32) (hash : UInt32) : Nat := (indexFor tableLength hash).toNat

/-- The number of slots. -/
def Htable.size (t : Htable) : Nat := t.tableLength.toNat

/-- The bucket that a key belongs to. -/
def Htable.home (t : Htable) (key : UInt64) : Nat := bucketOf t.tableLength (doHash t key)

/-- The lengths and limits that go together. -/
structure Shape (t : Htable) : Prop where
  length : t.table.length = t.size
  prime : primes[t.primeIndex.toNat]? = some t.tableLength
  limit : loadFactors[t.primeIndex.toNat]? = some t.loadLimit

/-- An entry has the hash of its key, and is in the bucket of that hash. -/
def Placed (t : Htable) (b : Nat → Bucket) : Prop :=
  ∀ i < t.size, ∀ x ∈ b i, x.2.hash = doHash t x.2.key ∧ t.home x.2.key = i

/-- The slots point to chains of cells, one for each bucket, and to nothing else. -/
structure Represents (s : State) (b : Nat → Bucket) : Prop where
  shape : Shape s.htable
  row : Row s.heap s.htable.table b
  placed : Placed s.htable b
  nodup : (addrs (rows b s.htable.size)).Nodup
  owned : ∀ a, s.heap.Live a → a ∈ addrs (rows b s.htable.size)
  count : s.htable.entryCount = .ofNat (rows b s.htable.size).length

/-- A table has slots. -/
theorem prime_pos {p : UInt32} (h : p ∈ primes) : 0 < p.toNat := by
  have hall : (primes.all fun p => decide (0 < p.toNat)) = true := by decide
  exact of_decide_eq_true (List.all_eq_true.mp hall p h)

/-- A table of this shape has at least one slot. -/
theorem Shape.size_pos {t : Htable} (h : Shape t) : 0 < t.size :=
  prime_pos (List.mem_of_getElem? h.prime)

/-- `indexFor` gives a slot of the table. -/
theorem bucketOf_lt {tableLength : UInt32} (h : 0 < tableLength.toNat) (hash : UInt32) :
    bucketOf tableLength hash < tableLength.toNat := by
  rw [bucketOf, indexFor, UInt32.toNat_mod]
  exact Nat.mod_lt _ h

/-- Every key has a slot. -/
theorem Shape.home_lt {t : Htable} (h : Shape t) (key : UInt64) : t.home key < t.size :=
  bucketOf_lt h.size_pos _

/-- A read inside the array. -/
theorem slot_eq {α : Type} {array : List α} {i : Nat} (h : i < array.length) :
    slot array i = .ok array[i] := by
  rw [slot, List.getElem?_eq_getElem h]

/-- A write inside the array. -/
theorem setSlot_eq {α : Type} {array : List α} {i : Nat} (h : i < array.length) (p : α) :
    setSlot array i p = .ok (array.set i p) := if_pos h

/-- A pointer to an allocated cell can be followed. -/
theorem deref_eq {h : Heap HashEntry} {a : Addr} {e : HashEntry} (he : h.cells a = some e) :
    deref h (some a) = .ok (a, e) := by
  simp only [deref, he]

/-! ### The loop along a bucket -/

variable {t : Htable} {h : Heap HashEntry} {key : UInt64} {hashValue : UInt32}

/-- What the loop has for the parent behind `l₁`. -/
def parentBehind (parent : Ptr) (l₁ : Bucket) : Ptr := (parentOf l₁).or parent

/-- The search loop over a chain without a match. -/
theorem findLoop_none {l : Bucket} {p : Ptr} (hchain : Chain h p l)
    (hno : ∀ x ∈ l, isMatch t key hashValue x.2 = false) (parent : Ptr) {fuel : Nat}
    (hfuel : l.length < fuel) : findLoop t h key hashValue fuel parent p = .ok none := by
  induction l generalizing p parent fuel with
  | nil =>
    obtain ⟨fuel, rfl⟩ := Nat.exists_eq_succ_of_ne_zero (Nat.ne_of_gt hfuel)
    cases hchain
    rfl
  | cons x l ih =>
    obtain ⟨a, x⟩ := x
    obtain ⟨fuel, rfl⟩ :=
      Nat.exists_eq_succ_of_ne_zero (Nat.ne_of_gt (Nat.zero_lt_of_lt hfuel))
    obtain ⟨rfl, n, hc, hrest⟩ := hchain
    have hx : isMatch t key hashValue x = false := hno _ List.mem_cons_self
    rw [findLoop, deref_eq hc, ok_bind]
    simp only [hx]
    exact ih hrest (fun y hy => hno y (List.mem_cons_of_mem _ hy)) _ (Nat.lt_of_succ_lt_succ hfuel)

/-- The search loop stops at the first match, with the cell in front of it. -/
theorem findLoop_some {l₁ l₂ : Bucket} {a : Addr} {x : Item} {p : Ptr}
    (hchain : Chain h p (l₁ ++ (a, x) :: l₂))
    (hno : ∀ y ∈ l₁, isMatch t key hashValue y.2 = false)
    (hx : isMatch t key hashValue x = true) (parent : Ptr) {fuel : Nat}
    (hfuel : l₁.length < fuel) :
    ∃ n, h.cells a = some ⟨x, n⟩ ∧ Chain h n l₂ ∧
      findLoop t h key hashValue fuel parent p =
        .ok (some (parentBehind parent l₁, a, ⟨x, n⟩)) := by
  -- along the chain; `parent` is the entry that the loop has just passed
  induction l₁ generalizing p parent fuel with
  | nil =>
    obtain ⟨fuel, rfl⟩ := Nat.exists_eq_succ_of_ne_zero (Nat.ne_of_gt hfuel)
    obtain ⟨rfl, n, hc, hrest⟩ := hchain
    refine ⟨n, hc, hrest, ?_⟩
    rw [findLoop, deref_eq hc, ok_bind]
    simp only [hx]
    rfl
  | cons y l₁ ih =>
    obtain ⟨c, y⟩ := y
    obtain ⟨fuel, rfl⟩ :=
      Nat.exists_eq_succ_of_ne_zero (Nat.ne_of_gt (Nat.zero_lt_of_lt hfuel))
    obtain ⟨rfl, n, hc, hrest⟩ := hchain
    have hy : isMatch t key hashValue y = false := hno _ List.mem_cons_self
    obtain ⟨m, ha, hrest', hloop⟩ := ih hrest (fun z hz => hno z (List.mem_cons_of_mem _ hz))
      (some c) (Nat.lt_of_succ_lt_succ hfuel)
    refine ⟨m, ha, hrest', ?_⟩
    rw [findLoop, deref_eq hc, ok_bind]
    simp only [hy]
    refine hloop.trans ?_
    cases l₁ with
    | nil => rfl
    | cons z l₁ =>
      rw [parentBehind, parentBehind, parentOf, parentOf, List.getLast?_cons_cons,
        List.getLast?_eq_some_getLast (List.cons_ne_nil z l₁)]
      rfl

/-! ### The entries as a list -/

/-- What an entry says. -/
def Item.binding (x : Item) : Binding := (x.key, x.value)

/-- What is in the buckets, slot by slot. -/
def bindings (b : Nat → Bucket) (n : Nat) : List Binding := (rows b n).map fun x => x.2.binding

/-- The loop's test is that of the dictionary, since the entry's hash is that of its key. -/
theorem isMatch_eq {x : Item} (hx : x.hash = doHash t x.key) (key : UInt64) :
    isMatch t key (doHash t key) x = bound t.toCallbacks key x.binding := by
  rw [isMatch, hx]
  rfl

/-- Keys that no function tells apart share a slot. -/
theorem home_eq_of_bound {x : Binding} (hx : bound t.toCallbacks key x = true) :
    t.home key = t.home x.1 := by
  obtain ⟨hhash, -⟩ := Bool.and_eq_true_iff.mp hx
  rw [Htable.home, doHash, beq_iff_eq.mp hhash, Htable.home, doHash]

/-- The bucket of a key, cut at its first match, and the other buckets before and behind. -/
structure FirstMatch (s : State) (b : Nat → Bucket) (key : UInt64) (pre l₁ : Bucket) (a : Addr)
    (x : Item) (l₂ post : Bucket) : Prop where
  bucket : b (s.htable.home key) = l₁ ++ (a, x) :: l₂
  others : ∀ l, rows (Function.update b (s.htable.home key) l) s.htable.size = pre ++ l ++ post
  before : ∀ y ∈ pre ++ l₁, bound s.htable.toCallbacks key y.2.binding = false
  here : bound s.htable.toCallbacks key x.binding = true

variable {s s' : State} {b : Nat → Bucket}

/-- The slot at an index, and the chain that it points to. -/
theorem Represents.chain (hs : Represents s b) {i : Nat} (hi : i < s.htable.size) :
    ∃ p, slot s.htable.table i = .ok p ∧ s.htable.table[i]? = some p ∧ Chain s.heap p (b i) := by
  have hlen : i < s.htable.table.length := by rwa [hs.shape.length]
  have hp := List.getElem?_eq_getElem hlen
  exact ⟨_, slot_eq hlen, hp, hs.row i _ hp⟩

/-- No chain is longer than the heap is large. -/
theorem Represents.length_lt (hs : Represents s b) {i : Nat} (hi : i < s.htable.size) :
    (b i).length < s.heap.next + 1 := by
  obtain ⟨p, -, -, hchain⟩ := hs.chain hi
  exact Nat.lt_succ_of_le (hchain.length_le (nodup_rows hs.nodup hi))

/-- An entry has the hash of its key. -/
theorem Represents.hash_eq (hs : Represents s b) {x : Addr × Item}
    (hx : x ∈ rows b s.htable.size) : x.2.hash = doHash s.htable x.2.key := by
  obtain ⟨i, hi, hxi⟩ := mem_rows.mp hx
  exact (hs.placed i hi x hxi).1

/-- An entry is in the slot of its key. -/
theorem Represents.mem_home (hs : Represents s b) {x : Addr × Item}
    (hx : x ∈ rows b s.htable.size) : x ∈ b (s.htable.home x.2.key) := by
  obtain ⟨i, hi, hxi⟩ := mem_rows.mp hx
  rwa [(hs.placed i hi x hxi).2]

/-- What a key is bound to is in the bucket of the key. -/
theorem Represents.mem_of_bound (hs : Represents s b) {x : Addr × Item}
    (hx : x ∈ rows b s.htable.size) (hkey : bound s.htable.toCallbacks key x.2.binding = true) :
    x ∈ b (s.htable.home key) := by
  rw [home_eq_of_bound hkey]
  exact hs.mem_home hx

/-- What is in the buckets before and behind belongs there. -/
theorem Represents.cut (hs : Represents s b) {i : Nat} (hi : i < s.htable.size) :
    ∃ pre post, (∀ l, rows (Function.update b i l) s.htable.size = pre ++ l ++ post) ∧
      rows b s.htable.size = pre ++ b i ++ post ∧
      ∀ y, y ∈ pre ∨ y ∈ post → s.htable.home y.2.key ≠ i := by
  obtain ⟨pre, post, hb, hupdate⟩ := rows_update b hi
  refine ⟨pre, post, hupdate, hb, ?_⟩
  rintro y hy rfl
  have hrows : y ∈ rows b s.htable.size := by
    rw [hb]
    simp only [List.mem_append]
    tauto
  have hhome := mem_addrs (hs.mem_home hrows)
  have hnd := hs.nodup
  rw [hb, addrs_append, addrs_append, List.nodup_append, List.nodup_append] at hnd
  obtain ⟨⟨-, -, hpre⟩, -, hpost⟩ := hnd
  rcases hy with hy | hy
  · exact hpre _ (mem_addrs hy) _ hhome rfl
  · exact hpost _ (List.mem_append_right _ hhome) _ (mem_addrs hy) rfl

/-- **Search.**  The loop sees the bucket of the key, and stops at the first entry of all that
    the key is bound to. -/
theorem find_cases (hs : Represents s b) (key : UInt64) :
    ((∀ x ∈ rows b s.htable.size, bound s.htable.toCallbacks key x.2.binding = false) ∧
        find s key = .ok (s.htable.home key, none)) ∨
      ∃ pre l₁ a x l₂ post n, FirstMatch s b key pre l₁ a x l₂ post ∧
        s.heap.cells a = some ⟨x, n⟩ ∧
        find s key = .ok (s.htable.home key, some (parentOf l₁, a, ⟨x, n⟩)) := by
  have hi := hs.shape.home_lt key
  obtain ⟨p, hslot, -, hchain⟩ := hs.chain hi
  have hfuel := hs.length_lt hi
  -- the hash stored in an entry is that of its key, so the test of the loop is `bound`
  have hmatch : ∀ y ∈ b (s.htable.home key),
      isMatch s.htable key (doHash s.htable key) y.2 = bound s.htable.toCallbacks key y.2.binding :=
    fun y hy => isMatch_eq (hs.placed _ hi y hy).1 key
  have hfind : find s key = (findLoop s.htable s.heap key (doHash s.htable key) (s.heap.next + 1)
      none p).map fun r => (s.htable.home key, r) := by
    show (do
      let head ← slot s.htable.table (s.htable.home key)
      return (s.htable.home key, ← findLoop s.htable s.heap key (doHash s.htable key)
        (s.heap.next + 1) none head)) = _
    rw [hslot, ok_bind]
    rfl
  cases hfirst : (b (s.htable.home key)).find? fun y => bound s.htable.toCallbacks key y.2.binding with
  | none =>
    have hno : ∀ y ∈ b (s.htable.home key), bound s.htable.toCallbacks key y.2.binding = false := by
      simpa using hfirst
    refine .inl ⟨fun y hy => ?_, ?_⟩
    · rw [Bool.eq_false_iff]
      intro hkey
      exact Bool.eq_false_iff.mp (hno y (hs.mem_of_bound hy hkey)) hkey
    · rw [hfind, findLoop_none hchain (fun y hy => (hmatch y hy).trans (hno y hy)) none hfuel]
      rfl
  | some y =>
    obtain ⟨a, x⟩ := y
    obtain ⟨hx, l₁, l₂, hsplit, hno⟩ := List.find?_eq_some_iff_append.mp hfirst
    have hno' : ∀ y ∈ l₁, bound s.htable.toCallbacks key y.2.binding = false := by simpa using hno
    rw [hsplit] at hchain hfuel hmatch
    have hlen : l₁.length < s.heap.next + 1 := by
      rw [List.length_append] at hfuel
      omega
    obtain ⟨n, hc, -, hloop⟩ := findLoop_some hchain
      (fun y hy => (hmatch y (List.mem_append_left _ hy)).trans (hno' y hy))
      ((hmatch _ (List.mem_append_right _ List.mem_cons_self)).trans hx) none hlen
    -- the other buckets are home to other keys
    obtain ⟨pre, post, hrows, -, hout⟩ := hs.cut hi
    refine .inr ⟨pre, l₁, a, x, l₂, post, n, ⟨hsplit, hrows, fun y hy => ?_, hx⟩, hc, ?_⟩
    · rcases List.mem_append.mp hy with hy | hy
      · exact Bool.eq_false_iff.mpr fun hkey => hout y (.inl hy) (home_eq_of_bound hkey).symm
      · exact hno' y hy
    · rw [hfind, hloop, parentBehind, Option.or_none]
      rfl

end SimpleHttp.PetHashtable
