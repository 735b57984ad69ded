import SimpleHttp.Lib.Chains

namespace SimpleHttp.PetHashtable

open Lib

/-!
# The hash table of `pet_hashtable.c`

* `Item`, `HashEntry`, `Htable`, `State` — the table, and the heap of its entries.
* `doHash`, `petHashU32`, `petHashPtr`, `petHashBuffer`, `indexFor` — hashing.
* `petCreateHtable`, `hashtableExpand`, `petHtableInsert` — the functions that allocate; what
  `calloc` and `realloc` report is an argument.
* `petHtableSearch`, `petHtableChange`, `petHtableInc`, `petHtableDec`, `petHtableCondRemove`,
  `petFreeHtable` — the others.
* `Iter`, `petHtableIterAdvance`, `petHtableIterRemove`, `petHtableIterSearch` — iterators.

Pointers that lead nowhere, indices out of range and memory read before it is written end a run
with a `Fault`.  So does the want of fuel, which a loop along a chain has enough of: no chain has
more cells than the heap has had objects.
-/

/-- How a run goes wrong. -/
inductive Fault where
  | null
  | dangling (a : Addr)
  | outOfBounds (i : Nat)
  | uninitialized
  | outOfFuel
  deriving DecidableEq, Repr

/-- What `struct hash_entry` holds beside its `next`. -/
structure Item where
  key : UInt64
  value : UInt64
  hash : UInt32
  deriving DecidableEq

/-- `struct hash_entry`. -/
abbrev HashEntry := Node Item

/-- The functions that a table is made with.  Of the two that free, the program knows whether they
    are there; what they do is theirs. -/
structure Callbacks where
  hashFn : UInt64 → UInt32
  eqFn : UInt64 → UInt64 → Bool
  valFreeFn : Bool
  keyFreeFn : Bool

/-- `struct pet_hashtable`. -/
structure Htable extends Callbacks where
  table : List Ptr
  tableLength : UInt32
  entryCount : UInt32
  loadLimit : UInt32
  primeIndex : UInt32

/-- A call of `key_free_fn` or `val_free_fn`. -/
inductive Release where
  | key (key : UInt64)
  | value (value : UInt64)
  deriving DecidableEq, Repr

/-- A table, the entries that have been allocated, and the calls of its free functions. -/
structure State where
  heap : Heap HashEntry
  htable : Htable
  released : List Release

/-! ### Hashing -/

/-- What `do_hash` does to the result of `hash_fn`. -/
def spread (i : UInt32) : UInt32 :=
  let i := i + ~~~(i <<< 9)
  let i := i ^^^ ((i >>> 14) ||| (i <<< 18))
  let i := i + (i <<< 4)
  i ^^^ ((i >>> 10) ||| (i <<< 22))

/-- `do_hash`: the hash function of the table, spread. -/
def doHash (t : Htable) (key : UInt64) : UInt32 := spread (t.hashFn key)

/-- `GOLDEN_RATIO_PRIME_32`. -/
def goldenRatioPrime32 : UInt64 := 0x9e370001

/-- `GOLDEN_RATIO_PRIME_64`. -/
def goldenRatioPrime64 : UInt64 := 0x9e37fffffffc0001

/-- `pet_hash_u32`. -/
def petHashU32 (val : UInt64) : UInt32 :=
  let hash := val.toUInt32
  -- the constant is a 64-bit one, and the product is cut back to 32 bits
  (hash.toUInt64 * goldenRatioPrime32).toUInt32

/-- `pet_hash_ptr`: the product with a constant of few bits, by shifts, sums and differences. -/
def petHashPtr (val : UInt64) : UInt32 :=
  let hash := val
  let n := hash
  let n := n <<< 18
  let hash := hash - n
  let n := n <<< 33
  let hash := hash - n
  let n := n <<< 3
  let hash := hash + n
  let n := n <<< 3
  let hash := hash - n
  let n := n <<< 4
  let hash := hash + n
  let n := n <<< 2
  let hash := hash + n
  (hash >>> 32).toUInt32

/-- `pet_cmp_ptr`. -/
def petCmpPtr (val1 val2 : UInt64) : Bool := val1 == val2

/-- One turn of the loop of `pet_hash_buffer`, at the byte `b` with the index `i`. -/
def hashByte (hash : UInt32) (b : UInt8) (i : UInt32) : UInt32 :=
  let hash := (hash <<< 4) + b.toUInt32 + i
  let temp := hash &&& 0xF0000000
  let hash := if temp ≠ 0 then hash ^^^ (temp >>> 24) else hash
  hash &&& ~~~temp

/-- The loop of `pet_hash_buffer`, from the index `i` on. -/
def hashLoop (hash : UInt32) (i : UInt32) : List UInt8 → UInt32
  | [] => hash
  | b :: msg => hashLoop (hashByte hash b i) (i + 1) msg

/-- `pet_hash_buffer` of the `length` bytes `msg`. -/
def petHashBuffer (msg : List UInt8) : UInt32 := hashLoop 0 0 msg

/-- The bucket of a hash; the length of a table is not zero. -/
def indexFor (tableLength hashValue : UInt32) : UInt32 := hashValue % tableLength

/-- The numbers of slots that a table can have. -/
def primes : List UInt32 :=
  [53, 97, 193, 389, 769, 1543, 3079, 6151, 12289, 24593, 49157, 98317, 196613, 393241, 786433,
    1572869, 3145739, 6291469, 12582917, 25165843, 50331653, 100663319, 201326611, 402653189,
    805306457, 1610612741]

/-- For each of these, how many entries it takes before the table grows. -/
def loadFactors : List UInt32 :=
  [35, 64, 126, 253, 500, 1003, 2002, 3999, 7988, 15986, 31953, 63907, 127799, 255607, 511182,
    1022365, 2044731, 4089455, 8178897, 16357798, 32715575, 65431158, 130862298, 261724573,
    523449198, 1046898282]

/-- `prime_table_len`. -/
def primeTableLen : Nat := primes.length

/-! ### Arrays and pointers -/

/-- `array[i]`. -/
def slot {α : Type} (array : List α) (i : Nat) : Except Fault α :=
  match array[i]? with
  | some p => .ok p
  | none => .error (.outOfBounds i)

/-- `array[i] = p`. -/
def setSlot {α : Type} (array : List α) (i : Nat) (p : α) : Except Fault (List α) :=
  if i < array.length then .ok (array.set i p) else .error (.outOfBounds i)

/-- The entry behind a pointer. -/
def deref (h : Heap HashEntry) : Ptr → Except Fault (Addr × HashEntry)
  | none => .error .null
  | some a =>
      match h.cells a with
      | none => .error (.dangling a)
      | some e => .ok (a, e)

/-! ### Creation -/

/-- The index of the first prime above `minSize`; without one the loop ends behind the array. -/
def primeAbove (minSize : UInt32) : Nat := primes.findIdx fun p => decide (p > minSize)

/-- `pet_create_htable`; the flags say which of its two `calloc`s succeed. -/
def petCreateHtable (minSize : UInt32) (hashFn : UInt64 → UInt32)
    (eqFn : UInt64 → UInt64 → Bool) (valFreeFn keyFreeFn : Bool)
    (callocHtable callocTable : Bool) : Except Fault (Option State) := do
  if minSize > (1 : UInt32) <<< 30 then return none
  let primeIndex := primeAbove minSize
  let size ← slot primes (if primeIndex < primeTableLen then primeIndex else 0)
  if !callocHtable then return none
  if !callocTable then return none
  let loadLimit ← slot loadFactors primeIndex
  return some
    { heap := .empty
      htable :=
        { table := List.replicate size.toNat none
          tableLength := size
          primeIndex := .ofNat primeIndex
          entryCount := 0
          loadLimit, hashFn, eqFn, valFreeFn, keyFreeFn }
      released := [] }

/-! ### Growth -/

/-- The two tables while the entries go from one into the other. -/
structure Rehash where
  heap : Heap HashEntry
  table : List Ptr
  newTable : List Ptr

/-- `while ((tmp_entry = htable->table[i]) != NULL)`. -/
def drainSlot (newSize : UInt32) (i : Nat) : Nat → Rehash → Except Fault Rehash
  | 0, _ => .error .outOfFuel
  | fuel + 1, s => do
      match ← slot s.table i with
      | none => return s
      | some tmpEntry =>
          let (a, e) ← deref s.heap (some tmpEntry)
          let table ← setSlot s.table i e.next
          let index := (indexFor newSize e.item.hash).toNat
          let heap := s.heap.write a { e with next := ← slot s.newTable index }
          let newTable ← setSlot s.newTable index (some tmpEntry)
          drainSlot newSize i fuel { heap, table, newTable }

/-- The loop over the slots of the old table. -/
def drain (newSize : UInt32) (s : Rehash) (tableLength : Nat) : Except Fault Rehash :=
  (List.range tableLength).foldlM (fun s i => drainSlot newSize i (s.heap.next + 1) s) s

/-- `hashtable_expand`, with what `calloc` and, if that fails, `realloc` report. -/
def hashtableExpand (s : State) (calloc realloc : Bool) : Except Fault (State × Int) := do
  let t := s.htable
  if t.primeIndex.toNat = primeTableLen - 1 then return (s, -1)
  let primeIndex := t.primeIndex + 1
  let newSize ← slot primes primeIndex.toNat
  if calloc then
    let r ← drain newSize
      { heap := s.heap, table := t.table, newTable := List.replicate newSize.toNat none }
      t.tableLength.toNat
    let loadLimit ← slot loadFactors primeIndex.toNat
    return ({ s with
      heap := r.heap
      htable := { t with table := r.newTable, tableLength := newSize, loadLimit, primeIndex } }, 0)
  else if realloc then
    -- Plan B: `memset(new_table[htable->table_length], …)` takes for the address of the new part
    -- what `realloc` has left in its first slot
    .error .uninitialized
  else return (s, -1)   -- `prime_index` is put back

/-- What the allocations of one insertion report. -/
structure Memory where
  table : Bool   -- `calloc` of a larger table, if one is wanted
  realloc : Bool
  entry : Bool

/-- `pet_htable_count`. -/
def petHtableCount (s : State) : UInt32 := s.htable.entryCount

/-- `pet_htable_insert` behind the attempt to expand; whether `calloc` has an entry is an
    argument. -/
def insertEntry (s : State) (key value : UInt64) (entry : Bool) : Except Fault (State × Int) := do
  if !entry then
    return ({ s with htable := { s.htable with entryCount := s.htable.entryCount - 1 } }, -1)
  let hash := doHash s.htable key
  let index := (indexFor s.htable.tableLength hash).toNat
  let next ← slot s.htable.table index
  let heap := s.heap.alloc ⟨⟨key, value, hash⟩, next⟩
  let table ← setSlot s.htable.table index (some s.heap.next)
  return ({ s with heap, htable := { s.htable with table } }, 0)

/-- `pet_htable_insert`: count first, grow if need be, then put the entry in front of its chain. -/
def petHtableInsert (s : State) (key value : UInt64) (mem : Memory) :
    Except Fault (State × Int) := do
  let s := { s with htable := { s.htable with entryCount := s.htable.entryCount + 1 } }
  if s.htable.entryCount > s.htable.loadLimit then
    let (s, _) ← hashtableExpand s mem.table mem.realloc
    insertEntry s key value mem.entry
  else insertEntry s key value mem.entry

/-! ### Looking up -/

/-- The test that all loops along a chain share; the hash short-circuits the comparison. -/
def isMatch (t : Htable) (key : UInt64) (hashValue : UInt32) (x : Item) : Bool :=
  hashValue == x.hash && t.eqFn key x.key

/-- `while (cursor != NULL)`: the first entry that matches, and the entry before it. -/
def findLoop (t : Htable) (h : Heap HashEntry) (key : UInt64) (hashValue : UInt32) :
    Nat → Ptr → Ptr → Except Fault (Option (Ptr × Addr × HashEntry))
  | 0, _, _ => .error .outOfFuel
  | _ + 1, _, none => .ok none
  | fuel + 1, parent, some cursor => do
      let (a, e) ← deref h (some cursor)
      if isMatch t key hashValue e.item then return some (parent, a, e)
      findLoop t h key hashValue fuel (some a) e.next

/-- The bucket of a key, and what the loop finds in it. -/
def find (s : State) (key : UInt64) : Except Fault (Nat × Option (Ptr × Addr × HashEntry)) := do
  let hashValue := doHash s.htable key
  let index := (indexFor s.htable.tableLength hashValue).toNat
  let head ← slot s.htable.table index
  return (index, ← findLoop s.htable s.heap key hashValue (s.heap.next + 1) none head)

/-- The value found, or `NULL`. -/
def petHtableSearch (s : State) (key : UInt64) : Except Fault UInt64 := do
  match ← find s key with
  | (_, none) => return 0
  | (_, some (_, _, e)) => return e.item.value

/-- The value of the entry found replaced by `f` of it, and the old one released if `release`. -/
def updateValue (s : State) (key : UInt64) (f : UInt64 → UInt64) (release : Bool) :
    Except Fault (State × Int) := do
  match ← find s key with
  | (_, none) => return (s, -1)
  | (_, some (_, a, e)) =>
      return ({ s with
        heap := s.heap.write a { e with item := { e.item with value := f e.item.value } }
        released := if release then s.released ++ [.value e.item.value] else s.released }, 0)

/-- `pet_htable_change`; the old value is released. -/
def petHtableChange (s : State) (key value : UInt64) : Except Fault (State × Int) :=
  updateValue s key (fun _ => value) s.htable.valFreeFn

/-- `pet_htable_inc`. -/
def petHtableInc (s : State) (key value : UInt64) : Except Fault (State × Int) :=
  updateValue s key (· + value) false

/-- `pet_htable_dec`. -/
def petHtableDec (s : State) (key value : UInt64) : Except Fault (State × Int) :=
  updateValue s key (· - value) false

/-! ### Removal -/

/-- `*entry_ptr = next`: the slot of the bucket, or the `next` of the entry before. -/
def setLink (s : State) (index : Nat) (parent next : Ptr) : Except Fault State := do
  match parent with
  | none => return { s with htable := { s.htable with table := ← setSlot s.htable.table index next } }
  | some _ =>
      let (a, e) ← deref s.heap parent
      return { s with heap := s.heap.write a { e with next } }

/-- `key_free_fn(e->key)`, if there is such a function. -/
def releaseKey (s : State) (key : UInt64) : State :=
  if s.htable.keyFreeFn then { s with released := s.released ++ [.key key] } else s

/-- `pet_htable_cond_remove`. -/
def petHtableCondRemove (s : State) (key : UInt64) (condFunc : Option (UInt64 → Bool)) :
    Except Fault (State × UInt64) := do
  match ← find s key with
  | (_, none) => return (s, 0)
  | (index, some (parent, a, e)) =>
      if condFunc.any fun cond => !cond e.item.value then return (s, 0)
      let s ← setLink s index parent e.next
      let s := { s with htable := { s.htable with entryCount := s.htable.entryCount - 1 } }
      let s := releaseKey s e.item.key
      return ({ s with heap := s.heap.free a }, e.item.value)

/-- `pet_htable_remove`. -/
def petHtableRemove (s : State) (key : UInt64) : Except Fault (State × UInt64) :=
  petHtableCondRemove s key none

/-- `while (cursor != NULL)` of `pet_free_htable`. -/
def freeChain (t : Htable) : Nat → Ptr → Heap HashEntry × List Release →
    Except Fault (Heap HashEntry × List Release)
  | 0, _, _ => .error .outOfFuel
  | _ + 1, none, s => .ok s
  | fuel + 1, some cursor, (heap, released) => do
      let (a, e) ← deref heap (some cursor)
      let released := if t.keyFreeFn then released ++ [.key e.item.key] else released
      let released := if t.valFreeFn then released ++ [.value e.item.value] else released
      freeChain t fuel e.next (heap.free a, released)

/-- What is left of the heap, and the calls of the free functions. -/
def petFreeHtable (s : State) : Except Fault (Heap HashEntry × List Release) :=
  (List.range s.htable.tableLength.toNat).foldlM
    (fun r i => do freeChain s.htable (r.1.next + 1) (← slot s.htable.table i) r)
    (s.heap, s.released)

/-! ### Iterators -/

/-- `struct pet_hashtable_iter`, for the one table there is. -/
structure Iter where
  entry : Ptr
  parent : Ptr
  index : UInt32
  deriving DecidableEq

/-- `pet_htable_create_iter`; the new iterator is on no entry. -/
def petHtableCreateIter (s : State) (calloc : Bool) : Option Iter :=
  if calloc then some ⟨none, none, s.htable.tableLength⟩ else none

/-- `pet_htable_get_iter_key`. -/
def petHtableGetIterKey (s : State) (it : Iter) : Except Fault UInt64 := do
  let (_, e) ← deref s.heap it.entry
  return e.item.key

/-- `pet_htable_get_iter_value`. -/
def petHtableGetIterValue (s : State) (it : Iter) : Except Fault UInt64 := do
  let (_, e) ← deref s.heap it.entry
  return e.item.value

/-- The first of the next `n` slots from `j` on that is not empty, and its number. -/
def firstUsed (table : List Ptr) : Nat → Nat → Except Fault (Option (Nat × Addr))
  | 0, _ => .ok none
  | n + 1, j => do
      match ← slot table j with
      | some a => return some (j, a)
      | none => firstUsed table n (j + 1)

/-- `pet_htable_iter_advance`: to the next entry of the chain, or to the next chain. -/
def petHtableIterAdvance (s : State) (it : Iter) : Except Fault (Iter × Bool) := do
  let tableLength := s.htable.tableLength
  match it.entry with
  | none =>
      match ← firstUsed s.htable.table tableLength.toNat 0 with
      | some (i, a) => return ({ it with entry := some a, index := .ofNat i }, true)
      | none => return (it, false)
  | some _ =>
      let (_, e) ← deref s.heap it.entry
      match e.next with
      | some next => return ({ it with parent := it.entry, entry := some next }, true)
      | none =>
          let j := it.index + 1
          if tableLength ≤ j then return ({ entry := none, parent := none, index := j }, false)
          match ← firstUsed s.htable.table (tableLength.toNat - j.toNat) j.toNat with
          | some (i, a) => return ({ entry := some a, parent := none, index := .ofNat i }, true)
          | none => return ({ entry := none, parent := none, index := tableLength }, false)

/-- `pet_htable_iter_remove`: unlink the entry, advance, and free it. -/
def petHtableIterRemove (s : State) (it : Iter) : Except Fault (State × Iter × Bool) := do
  let (rememberEntry, e) ← deref s.heap it.entry
  let s ← setLink s it.index.toNat it.parent e.next
  let s := { s with htable := { s.htable with entryCount := s.htable.entryCount - 1 } }
  let s := releaseKey s e.item.key
  let rememberParent := it.parent
  let (it, ret) ← petHtableIterAdvance s it
  let it := if it.parent = some rememberEntry then { it with parent := rememberParent } else it
  return ({ s with heap := s.heap.free rememberEntry }, it, ret)

/-- `pet_htable_iter_search`. -/
def petHtableIterSearch (s : State) (it : Iter) (key : UInt64) : Except Fault (Iter × Bool) := do
  match ← find s key with
  | (_, none) => return (it, false)
  | (index, some (parent, a, _)) => return (⟨some a, parent, .ofNat index⟩, true)

end SimpleHttp.PetHashtable
