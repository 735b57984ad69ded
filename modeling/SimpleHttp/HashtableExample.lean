import SimpleHttp.Lib.Format
import SimpleHttp.PetHashtableHash
import SimpleHttp.PetHashtableMaps

namespace SimpleHttp.HashtableExample

open Lib PetHashtable

/-!
# `hashtable_example.c`

* `main` — every argument goes into a table under its index, and one is searched for and removed.
* `Built` — the invariant of the loop: the table is the finite map from indices to buffers.
* `main_removes` — the argument with an index that is there is printed and removed, but its buffer
  is not freed; with any other index there is the error message.
-/

/-- `struct str_buffer`. -/
structure StrBuffer where
  str : Bytes
  key : Int

/-- The table, and the buffers by their addresses. -/
structure State where
  table : PetHashtable.State
  bufs : UInt64 → Option StrBuffer

/-- What the allocations of a run report; `buffer i` is the address of the buffer of the argument
    `i`, and `insertion i` what happens when it is inserted. -/
structure Allocs where
  htable : Bool
  slots : Bool
  buffer : Nat → UInt64
  insertion : Nat → PetHashtable.Memory

/-- `__u32_eq_fn`. -/
def u32EqFn (val1 val2 : UInt64) : Bool := val1.toUInt32 == val2.toUInt32

/-- `(uintptr_t)` of an `int`. -/
def uintptr (v : Int) : UInt64 := UInt64.ofInt v

/-- One turn of the loop.  Every `calloc` and `strdup` of a buffer succeeds; what
    `pet_htable_insert` returns is not looked at. -/
def addBuffer (allocs : Allocs) (s : State) (arg : Bytes × Nat) : Except Fault State := do
  let newBuf := allocs.buffer arg.2
  let (table, _) ←
    petHtableInsert s.table (uintptr arg.2) newBuf (allocs.insertion arg.2)
  pure ⟨table, Function.update s.bufs newBuf (some ⟨cstr arg.1, arg.2⟩)⟩

/-- What is printed, the value returned and what is left. -/
structure Ending where
  stdout : Bytes
  code : Int
  state : State

/-- `main` behind the creation of `test_table`. -/
def fillAndRemove (allocs : Allocs) (args : List Bytes) (indexStr : Bytes)
    (testTable : PetHashtable.State) : Except Fault Ending := do
  let title := ascii "Hashtable API example\n"
  let s ← (args.zipIdx 1).foldlM (addBuffer allocs) ⟨testTable, fun _ => none⟩
  let index := atoi indexStr
  let buf ← petHtableSearch s.table (uintptr index)
  if buf = 0 then
    pure ⟨title ++ ascii "Error: Could not find string index (" ++ decimal index ++ ascii ")\n",
      -1, s⟩
  else
    match s.bufs buf with
    | none => .error (.dangling buf.toNat)
    | some found =>
        let (table, _) ← petHtableRemove s.table (uintptr index)
        -- `main` ends without a `return`
        pure ⟨title ++ ascii "Found string at index (" ++ decimal found.key ++ ascii "): " ++
          found.str ++ ascii "\n", 0, { s with table }⟩

/-- `main`, with the line that `readline` returns (it is `readline` that prints the prompt). -/
def main (allocs : Allocs) (argv : List Bytes) (indexStr : Bytes) : Except Fault Ending := do
  match ← petCreateHtable 0 petHashU32 u32EqFn true false allocs.htable allocs.slots with
  | none => .error .null
  | some testTable => fillAndRemove allocs (argv.drop 1) indexStr testTable

/-! ### Keys -/

/-- The functions that the table is made with. -/
def callbacks : Callbacks := ⟨petHashU32, u32EqFn, true, false⟩

/-- `__u32_eq_fn` is an equivalence. -/
theorem eqFn_callbacks : Dictionary.EqFn callbacks := by
  refine ⟨fun key => beq_self_eq_true _, fun h => ?_, fun h h' => ?_⟩
  · exact BEq.symm h
  · exact BEq.trans h h'

/-- Keys are the same if their low 32 bits are. -/
theorem same_iff (key₁ key₂ : UInt64) :
    same callbacks key₁ key₂ = true ↔ key₁.toUInt32 = key₂.toUInt32 := by
  rw [same, Bool.and_eq_true, beq_iff_eq]
  constructor
  · rintro ⟨-, heq⟩
    exact eq_of_beq heq
  · intro heq
    exact ⟨congrArg spread ((petHashU32_eq_iff key₁ key₂).mpr heq), beq_iff_eq.mpr heq⟩

/-- The low 32 bits of an index. -/
theorem toUInt32_uintptr (v : Int) : (uintptr v).toUInt32.toNat = (v % 2 ^ 32).toNat := by
  rw [UInt64.toNat_toUInt32, uintptr, UInt64.ofInt, UInt64.toNat_ofNat']
  omega

/-! ### The table of the arguments -/

/-- No allocation of `n` arguments fails, and the buffers are apart. -/
structure Allocs.Granted (allocs : Allocs) (n : Nat) : Prop where
  htable : allocs.htable = true
  slots : allocs.slots = true
  buffer_ne : ∀ i ≤ n, allocs.buffer i ≠ 0
  buffer_inj : ∀ i ≤ n, ∀ j ≤ n, allocs.buffer i = allocs.buffer j → i = j
  table : ∀ i ≤ n, (allocs.insertion i).table = true
  entry : ∀ i ≤ n, (allocs.insertion i).entry = true

/-- The buffer under a key, of `n` arguments. -/
def bufferAt (allocs : Allocs) (n : Nat) (key : UInt64) : Option UInt64 :=
  if 1 ≤ key.toUInt32.toNat ∧ key.toUInt32.toNat ≤ n then some (allocs.buffer key.toUInt32.toNat)
  else none

/-- The arguments so far are in the table, and nothing has been freed. -/
structure Built (allocs : Allocs) (args : List Bytes) (s : State) : Prop where
  table : ∃ d m, Models callbacks s.table d ∧ Denotes callbacks d m ∧ d.released = [] ∧
    m.size = args.length ∧ ∀ key, m.lookup key = bufferAt allocs args.length key
  bufs : ∀ i arg, args[i]? = some arg →
    s.bufs (allocs.buffer (i + 1)) = some ⟨cstr arg, ((i + 1 : Nat) : Int)⟩

/-- No insertion frees anything. -/
theorem released_insert {d d' : Dictionary} {key value : UInt64} {mem : PetHashtable.Memory}
    {r : Int} (h : d.insert key value mem = .ok (d', r)) : d'.released = d.released := by
  have hpush : ∀ d₀ : Dictionary, (d₀.push key value mem.entry).1.released = d₀.released := by
    intro d₀
    rw [Dictionary.push]
    split <;> rfl
  rcases Dictionary.insert_cases h with ⟨heq, -⟩ | ⟨heq, -⟩
  · rw [← hpush d, heq]
  · have hgrow := hpush d.grow
    rw [heq] at hgrow
    exact hgrow

variable {allocs : Allocs}

/-- The key of an argument is its index. -/
theorem toUInt32_uintptr_index {i : Nat} (hi : i < 2 ^ 31) :
    (uintptr (i : Int)).toUInt32.toNat = i := by
  rw [toUInt32_uintptr]
  omega

/-- An insertion under a key that is not there, with memory for it. -/
theorem insert_fresh {s : PetHashtable.State} {d : Dictionary} {m : FiniteMap}
    (hmodels : Models callbacks s d) (hdenotes : Denotes callbacks d m) {key value : UInt64}
    {mem : PetHashtable.Memory} (hfree : m.lookup key = none) (htable : mem.table = true)
    (hentry : mem.entry = true) :
    ∃ s' d', petHtableInsert s key value mem = .ok (s', 0) ∧ Models callbacks s' d' ∧
      Denotes callbacks d' (m.set callbacks key (some value) (m.size + 1)) ∧
      d'.released = d.released := by
  have hinsert : m.insert callbacks key value mem =
      .ok (m.set callbacks key (some value) (m.size + 1), 0) := by
    rw [FiniteMap.insert, hfree]
    simp [htable, hentry]
  obtain ⟨d', hd, hdenotes'⟩ := hdenotes.insert eqFn_callbacks hinsert
  have hstep := exec_models eqFn_callbacks hmodels (.insert key value mem)
  rw [Dictionary.exec, hd] at hstep
  obtain ⟨s', hexec, hmodels'⟩ := hstep.of_ok
  obtain ⟨⟨s'', r⟩, hrun, heq⟩ := exists_of_map_eq_ok hexec
  cases heq
  exact ⟨s'', d', hrun, hmodels', hdenotes', released_insert hd⟩

/-- One argument more, whose key is `key`. -/
theorem bufferAt_succ {n : Nat} {key : UInt64} (hkey : key.toUInt32.toNat = n + 1) (k : UInt64) :
    (if same callbacks key k then some (allocs.buffer (n + 1)) else bufferAt allocs n k) =
      bufferAt allocs (n + 1) k := by
  by_cases hsame : same callbacks key k = true
  · have hk : k.toUInt32.toNat = n + 1 := by
      rw [← (same_iff _ _).mp hsame, hkey]
    rw [if_pos hsame, bufferAt, hk, if_pos (by omega)]
  · have hne : k.toUInt32.toNat ≠ n + 1 := by
      rw [← hkey]
      exact fun heq => hsame ((same_iff _ _).mpr (UInt32.toNat_inj.mp heq).symm)
    have hiff : (1 ≤ k.toUInt32.toNat ∧ k.toUInt32.toNat ≤ n) ↔
        (1 ≤ k.toUInt32.toNat ∧ k.toUInt32.toNat ≤ n + 1) := by omega
    rw [if_neg hsame]
    simp only [bufferAt, hiff]

/-- One turn. -/
theorem Built.add {n : Nat} (hallocs : allocs.Granted n) {args : List Bytes} {s : State}
    (h : Built allocs args s) (hn : args.length + 1 ≤ n) (hlength : args.length + 1 < 2 ^ 31)
    (arg : Bytes) :
    ∃ s', addBuffer allocs s (arg, args.length + 1) = .ok s' ∧ Built allocs (args ++ [arg]) s' := by
  obtain ⟨⟨d, m, hmodels, hdenotes, hreleased, hsize, hlookup⟩, hbufs⟩ := h
  have hkey := toUInt32_uintptr_index hlength
  -- the indices so far are smaller
  have hfree : m.lookup (uintptr ((args.length + 1 : Nat) : Int)) = none := by
    rw [hlookup, bufferAt, hkey, if_neg (by omega)]
  obtain ⟨table, d', hrun, hmodels', hdenotes', hreleased'⟩ :=
    insert_fresh hmodels hdenotes hfree (hallocs.table _ hn) (hallocs.entry _ hn)
  refine ⟨_, by rw [addBuffer, hrun]; rfl,
    ⟨d', _, hmodels', hdenotes', hreleased'.trans hreleased, ?_, fun key => ?_⟩,
    fun i arg' harg => ?_⟩
  · show m.size + 1 = _
    rw [hsize, List.length_append]
    rfl
  · rw [FiniteMap.lookup_set, hlookup, List.length_append, List.length_singleton]
    exact bufferAt_succ hkey key
  · -- the new buffer covers none of the others
    show Function.update s.bufs (allocs.buffer (args.length + 1)) _ (allocs.buffer (i + 1)) = _
    by_cases hi : i = args.length
    · rw [hi, List.getElem?_concat_length] at harg
      cases harg
      rw [hi, Function.update_self]
    · have hlt : i < args.length := by
        have hin := (List.getElem?_eq_some_iff.mp harg).1
        rw [List.length_append, List.length_singleton] at hin
        omega
      have hne : allocs.buffer (i + 1) ≠ allocs.buffer (args.length + 1) := by
        intro heq
        have hindex := hallocs.buffer_inj _ (by omega) _ hn heq
        omega
      rw [List.getElem?_append_left hlt] at harg
      rw [Function.update_of_ne hne, hbufs i arg' harg]

/-- **The loop.** -/
theorem build {n : Nat} (hallocs : allocs.Granted n) {testTable : PetHashtable.State}
    {primeIndex : Nat} (hnew : Models callbacks testTable ⟨[], primeIndex, []⟩)
    (args : List Bytes) (hn : args.length ≤ n) (hlength : args.length < 2 ^ 31) :
    ∃ s, (args.zipIdx 1).foldlM (addBuffer allocs) ⟨testTable, fun _ => none⟩ = .ok s ∧
      Built allocs args s := by
  apply run_zipIdx
  · intro done arg s hdone h
    rw [Nat.add_comm]
    exact h.add hallocs (by omega) (by omega) arg
  · refine ⟨⟨_, _, hnew, Denotes.empty callbacks primeIndex, rfl, rfl, fun key => ?_⟩,
      fun i arg harg => by simp at harg⟩
    rw [bufferAt, if_neg (by simp only [List.length_nil]; omega)]
    rfl

/-! ### The search -/

/-- A key of 1 to the number of arguments finds its buffer. -/
theorem Built.search_eq {args : List Bytes} {s : State} (h : Built allocs args s) (key : UInt64) :
    petHtableSearch s.table key = .ok ((bufferAt allocs args.length key).getD 0) := by
  obtain ⟨⟨d, m, hmodels, hdenotes, -, -, hlookup⟩, -⟩ := h
  rw [hmodels.search, hdenotes.search_eq, hlookup]

/-- The index that is read, as a key. -/
theorem bufferAt_uintptr {args : List Bytes} (hlength : args.length < 2 ^ 31) {index : Int}
    (hindex : -2 ^ 31 ≤ index ∧ index < 2 ^ 31) :
    bufferAt allocs args.length (uintptr index) =
      if 1 ≤ index ∧ index ≤ args.length then some (allocs.buffer index.toNat) else none := by
  have hkey := toUInt32_uintptr index
  by_cases hin : 1 ≤ index ∧ index ≤ args.length
  · have hkey' : (uintptr index).toUInt32.toNat = index.toNat := by omega
    rw [if_pos hin, bufferAt, hkey', if_pos (by omega)]
  · rw [if_neg hin, bufferAt, hkey, if_neg (by omega)]

/-- **The removal.**  What the table held for the key is handed back, and not freed. -/
theorem Built.remove {args : List Bytes} {s : State} (h : Built allocs args s) {key : UInt64}
    {value : UInt64} (hvalue : bufferAt allocs args.length key = some value) :
    ∃ table, petHtableRemove s.table key = .ok (table, value) ∧ table.released = [] ∧
      petHtableSearch table key = .ok 0 ∧ petHtableCount table = .ofNat (args.length - 1) := by
  obtain ⟨⟨d, m, hmodels, hdenotes, hreleased, hsize, hlookup⟩, -⟩ := h
  have hremove : m.condRemove callbacks key none =
      (m.set callbacks key none (m.size - 1), value) := by
    rw [FiniteMap.condRemove, hlookup, hvalue]
    rfl
  obtain ⟨hdenotes', hd⟩ := hdenotes.condRemove eqFn_callbacks key none
  have hfreed : (d.condRemove callbacks key none).1.released = [] := by
    rw [Dictionary.condRemove]
    split <;> exact hreleased
  have hstep := exec_models eqFn_callbacks hmodels (.remove key)
  rw [Dictionary.exec] at hstep
  rw [hremove] at hdenotes' hd
  rcases hd' : d.condRemove callbacks key none with ⟨d', value'⟩
  rw [hd'] at hdenotes' hd hfreed hstep
  obtain ⟨table, hexec, hmodels'⟩ := hstep.of_ok
  obtain ⟨⟨table', value''⟩, hrun, heq⟩ := exists_of_map_eq_ok hexec
  cases heq
  cases hd
  have hleft : Models callbacks table' d' := hmodels'
  refine ⟨table', hrun, hleft.released_eq.trans hfreed, ?_, ?_⟩
  · rw [hleft.search, hdenotes'.search_eq, FiniteMap.lookup_set,
      if_pos ((same_iff key key).mpr rfl)]
    rfl
  · rw [hleft.count eqFn_callbacks, ← hdenotes'.size]
    exact congrArg (fun n => UInt32.ofNat (n - 1)) hsize

/-- **The example.**  With the index of an argument, the argument is printed and taken out of the
    table, but `__free_buffer_fn` is not called: a removal hands its value back.  With any other
    index there is the error message. -/
theorem main_removes (prog : Bytes) (args : List Bytes) (indexStr : Bytes)
    (hallocs : allocs.Granted args.length) (hlength : args.length < 2 ^ 31) :
    (∀ i arg, atoi indexStr = ((i + 1 : Nat) : Int) → args[i]? = some arg →
      ∃ s, main allocs (prog :: args) indexStr =
          .ok ⟨ascii "Hashtable API example\n" ++ ascii "Found string at index (" ++
            decimal (atoi indexStr) ++ ascii "): " ++ cstr arg ++ ascii "\n", 0, s⟩ ∧
        petHtableSearch s.table (uintptr (atoi indexStr)) = .ok 0 ∧
        petHtableCount s.table = .ofNat (args.length - 1) ∧
        s.table.released = [] ∧ (s.bufs (allocs.buffer (i + 1))).isSome) ∧
    (¬ (1 ≤ atoi indexStr ∧ atoi indexStr ≤ args.length) →
      ∃ s, main allocs (prog :: args) indexStr =
        .ok ⟨ascii "Hashtable API example\n" ++ ascii "Error: Could not find string index (" ++
          decimal (atoi indexStr) ++ ascii ")\n", -1, s⟩) := by
  have hsize : (0 : UInt32) ≤ (1 : UInt32) <<< 30 := by decide
  obtain ⟨testTable, hcreate, hnew, -⟩ := petCreateHtable_spec hsize callbacks
  obtain ⟨s, hbuild, h⟩ := build hallocs hnew.models args (Nat.le_refl _) hlength
  have hkey : bufferAt allocs args.length (uintptr (atoi indexStr)) = _ :=
    bufferAt_uintptr hlength (atoi_range indexStr)
  -- the table is there: `0` is small enough, and memory is granted
  have hmain : main allocs (prog :: args) indexStr =
      fillAndRemove allocs args indexStr testTable := by
    rw [main, hallocs.htable, hallocs.slots]
    show (petCreateHtable 0 callbacks.hashFn callbacks.eqFn callbacks.valFreeFn
      callbacks.keyFreeFn true true >>= _) = _
    rw [hcreate]
    rfl
  rw [hmain]
  constructor
  · intro i arg hindex harg
    have hi : i < args.length := (List.getElem?_eq_some_iff.mp harg).1
    -- the index that is read is one of the keys
    have hin : 1 ≤ atoi indexStr ∧ atoi indexStr ≤ args.length := by omega
    rw [if_pos hin, hindex, Int.toNat_natCast] at hkey
    have hsearch := h.search_eq (uintptr ((i + 1 : Nat) : Int))
    rw [hkey, Option.getD_some] at hsearch
    obtain ⟨table, hremove, hreleased, hgone, hcount⟩ := h.remove hkey
    have hbuf := h.bufs i arg harg
    refine ⟨{ s with table }, ?_, ?_, hcount, hreleased, ?_⟩
    · simp only [fillAndRemove, hbuild, ok_bind, hindex, hsearch, if_neg (hallocs.buffer_ne _ hi),
        hbuf, hremove, pure_ok, List.append_assoc]
    · rw [hindex]
      exact hgone
    · rw [hbuf]
      rfl
  · -- none of the keys has the low 32 bits of this index
    intro hout
    rw [if_neg hout] at hkey
    have hsearch := h.search_eq (uintptr (atoi indexStr))
    rw [hkey, Option.getD_none] at hsearch
    refine ⟨s, ?_⟩
    simp only [fillAndRemove, hbuild, ok_bind, hsearch, if_true, pure_ok, List.append_assoc]

/-- A buffer for every argument, at an address of its own. -/
def granted : Allocs where
  htable := true
  slots := true
  buffer i := .ofNat (4096 + 32 * i)
  insertion _ := ⟨true, true, true⟩

/-- With `granted`, there is memory for two arguments. -/
theorem granted_two : granted.Granted 2 where
  htable := rfl
  slots := rfl
  buffer_ne := by decide
  buffer_inj := by decide
  table _ _ := rfl
  entry _ _ := rfl

/-- The second of two arguments. -/
theorem main_removes_second :
    ∃ s, main granted [ascii "hashtable_example", ascii "ab", ascii "cd"] (ascii "2") =
        .ok ⟨ascii "Hashtable API example\nFound string at index (2): cd\n", 0, s⟩ ∧
      petHtableCount s.table = 1 ∧ s.table.released = [] := by
  obtain ⟨s, hrun, -, hcount, hreleased, -⟩ := (main_removes (ascii "hashtable_example")
    [ascii "ab", ascii "cd"] (ascii "2") granted_two (by decide)).1 1 (ascii "cd") (by decide) rfl
  exact ⟨s, hrun, hcount, hreleased⟩

end SimpleHttp.HashtableExample
