import SimpleHttp.PetHashtableRuns

namespace SimpleHttp.PetHashtable

open Lib

/-!
# Tables without duplicate keys

* `FiniteMap` — what a table is to a caller who keeps to the contract: no key is inserted that is
  there already, and no insertion takes the branch of `hashtable_expand` that goes wrong.
* `petHtable_finiteMap` — in every run that keeps to it, the table is that map; how often it has
  grown is not to be seen.
-/

/-- A value for some keys, and how many of them there are. -/
structure FiniteMap where
  lookup : UInt64 → Option UInt64
  size : Nat

/-- What the contract forbids. -/
inductive Misuse where
  | duplicate (key : UInt64)
  | realloc
  deriving DecidableEq

namespace FiniteMap

/-- No key has a value. -/
def empty : FiniteMap := ⟨fun _ => none, 0⟩

variable (c : Callbacks) (m : FiniteMap)

/-- The map with another value, or none, at a key. -/
def set (key : UInt64) (value : Option UInt64) (size : Nat) : FiniteMap where
  lookup k := if same c key k then value else m.lookup k
  size := size

/-- Another value for a key that has one. -/
def update (key : UInt64) (f : UInt64 → UInt64) : FiniteMap × Int :=
  match m.lookup key with
  | none => (m, -1)
  | some value => (m.set c key (some (f value)) m.size, 0)

/-- The value of a key goes, unless the caller's test of it fails. -/
def condRemove (key : UInt64) (condFunc : Option (UInt64 → Bool)) : FiniteMap × UInt64 :=
  match m.lookup key with
  | none => (m, 0)
  | some value =>
      if condFunc.any fun cond => !cond value then (m, 0)
      else (m.set c key none (m.size - 1), value)

/-- A value for a new key. -/
def insert (key value : UInt64) (mem : Memory) : Except Misuse (FiniteMap × Int) :=
  if (m.lookup key).isSome then .error (.duplicate key)
  else if !mem.table && mem.realloc then .error .realloc
  else if mem.entry then .ok (m.set c key (some value) (m.size + 1), 0)
  else .ok (m, -1)

/-- One call, and what it returns. -/
def exec : Op → Except Misuse (FiniteMap × Answer)
  | .count => .ok (m, .count (.ofNat m.size))
  | .insert key value mem => (m.insert c key value mem).map (Prod.map id .status)
  | .search key => .ok (m, .value ((m.lookup key).getD 0))
  | .change key value => .ok (Prod.map id .status (m.update c key fun _ => value))
  | .inc key value => .ok (Prod.map id .status (m.update c key (· + value)))
  | .dec key value => .ok (Prod.map id .status (m.update c key (· - value)))
  | .remove key => .ok (Prod.map id .value (m.condRemove c key none))
  | .condRemove key condFunc => .ok (Prod.map id .value (m.condRemove c key condFunc))

end FiniteMap

variable {c : Callbacks} {d : Dictionary} {m : FiniteMap}

/-- Keys that no function tells apart have one value. -/
theorem FiniteMap.lookup_set (key k : UInt64) (value : Option UInt64) (size : Nat) :
    (m.set c key value size).lookup k = if same c key k then value else m.lookup k := rfl

/-- The bindings of a dictionary are those of a map. -/
structure Denotes (c : Callbacks) (d : Dictionary) (m : FiniteMap) : Prop where
  lookup : ∀ key, m.lookup key = (d.find? c key).map Prod.snd
  size : m.size = d.bindings.length
  distinct : OnePerClass (same c) Prod.fst d.bindings

/-- The empty table. -/
theorem Denotes.empty (c : Callbacks) (primeIndex : Nat) : Denotes c ⟨[], primeIndex, []⟩ .empty :=
  ⟨fun _ => rfl, rfl, onePerClass_nil _ _⟩

/-- A search returns the value of the map. -/
theorem Denotes.search_eq (h : Denotes c d m) (key : UInt64) :
    d.search c key = (m.lookup key).getD 0 := by
  rw [h.lookup, Dictionary.search]
  cases d.find? c key <;> rfl

/-- Growth turns the order around, which with one binding a key is not to be seen. -/
theorem Denotes.grow (h : Denotes c d m) : Denotes c d.grow m where
  lookup key := by
    rw [h.lookup]
    exact congrArg _ (h.distinct.find?_reverse key).symm
  size := h.size.trans List.length_reverse.symm
  distinct := h.distinct.reverse

variable (hc : Dictionary.EqFn c)
include hc

/-- A binding of a new key. -/
theorem Denotes.cons (h : Denotes c d m) {key : UInt64} (hkey : m.lookup key = none)
    (value : UInt64) :
    Denotes c { d with bindings := (key, value) :: d.bindings }
      (m.set c key (some value) (m.size + 1)) where
  lookup k := by
    have hsymm : bound c k (key, value) = same c key k := by
      rw [bound, ofClass, Bool.eq_iff_iff]
      exact ⟨(Dictionary.same_equivalence hc).symm, (Dictionary.same_equivalence hc).symm⟩
    rw [FiniteMap.lookup_set, Dictionary.find?, List.find?_cons, hsymm]
    cases same c key k with
    | true => rfl
    | false => exact h.lookup k
  size := congrArg (· + 1) h.size
  distinct := by
    refine h.distinct.cons (Dictionary.same_equivalence hc) ?_
    have hfind := h.lookup key
    rw [hkey, eq_comm, Option.map_eq_none_iff] at hfind
    exact hfind

/-- **Updates.** -/
theorem Denotes.update (h : Denotes c d m) (key : UInt64) (f : UInt64 → UInt64) (release : Bool) :
    Denotes c (d.update c key f release).1 (m.update c key f).1 ∧
      (d.update c key f release).2 = (m.update c key f).2 := by
  rw [Dictionary.update, FiniteMap.update, h.lookup]
  cases hd : d.find? c key with
  | none => exact ⟨h, rfl⟩
  | some x =>
    refine ⟨⟨fun k => ?_, h.size.trans length_modifyFirst.symm,
      h.distinct.modifyFirst _ fun _ => rfl⟩, rfl⟩
    have hfind : (modifyFirst (bound c key) (fun y => (y.1, f y.2)) d.bindings).find? (bound c k) =
        if same c key k then (d.find? c key).map fun y => (y.1, f y.2) else d.find? c k :=
      find?_modifyFirst (Dictionary.same_equivalence hc) key k (g := fun y => (y.1, f y.2))
        (fun _ => rfl) d.bindings
    dsimp only [Option.map_some]
    rw [Dictionary.find?, hfind, FiniteMap.lookup_set, hd, h.lookup]
    split <;> rfl

/-- **Removals.** -/
theorem Denotes.condRemove (h : Denotes c d m) (key : UInt64)
    (condFunc : Option (UInt64 → Bool)) :
    Denotes c (d.condRemove c key condFunc).1 (m.condRemove c key condFunc).1 ∧
      (d.condRemove c key condFunc).2 = (m.condRemove c key condFunc).2 := by
  rw [Dictionary.condRemove, FiniteMap.condRemove, h.lookup]
  cases hd : d.find? c key with
  | none => exact ⟨h, rfl⟩
  | some x =>
    dsimp only [Option.map_some]
    split
    · exact ⟨h, rfl⟩
    · refine ⟨⟨fun k => ?_, ?_, h.distinct.eraseP _⟩, rfl⟩
      · have hfind : (d.bindings.eraseP (bound c key)).find? (bound c k) =
            if same c key k then none else d.find? c k :=
          h.distinct.find?_eraseP (Dictionary.same_equivalence hc) key k
        rw [Dictionary.find?, hfind, FiniteMap.lookup_set, h.lookup]
        split <;> rfl
      · have hmem : x ∈ d.bindings := List.mem_of_find?_eq_some hd
        have hx : bound c key x = true := List.find?_some hd
        show m.size - 1 = _
        rw [h.size, List.length_eraseP_of_mem hmem hx]

/-- **Insertions.** -/
theorem Denotes.insert (h : Denotes c d m) {key value : UInt64} {mem : Memory} {m' : FiniteMap}
    {r : Int} (hm : m.insert c key value mem = .ok (m', r)) :
    ∃ d', d.insert key value mem = .ok (d', r) ∧ Denotes c d' m' := by
  rw [FiniteMap.insert] at hm
  split at hm
  · cases hm
  rename_i hfree
  split at hm
  · cases hm
  rename_i hmem
  have hkey : m.lookup key = none := by simpa using hfree
  -- whether or not the table grows, the binding is added to the same map
  have hpush : ∀ d₀, Denotes c d₀ m →
      Denotes c (d₀.push key value mem.entry).1 m' ∧ (d₀.push key value mem.entry).2 = r := by
    intro d₀ h₀
    rw [Dictionary.push]
    split at hm
    · rename_i hentry
      cases hm
      rw [if_pos hentry]
      exact ⟨h₀.cons hc hkey value, rfl⟩
    · rename_i hentry
      cases hm
      rw [if_neg hentry]
      exact ⟨h₀, rfl⟩
  rw [Dictionary.insert]
  split
  · split
    · exact ⟨_, congrArg _ (Prod.ext rfl (hpush _ h.grow).2), (hpush _ h.grow).1⟩
    · split
      · simp_all
      · exact ⟨_, congrArg _ (Prod.ext rfl (hpush _ h).2), (hpush _ h).1⟩
  · exact ⟨_, congrArg _ (Prod.ext rfl (hpush _ h).2), (hpush _ h).1⟩

/-- **Calls.** -/
theorem Denotes.exec (h : Denotes c d m) {op : Op} {m' : FiniteMap} {a : Answer}
    (hm : m.exec c op = .ok (m', a)) :
    ∃ d', d.exec c op = .ok (d', a) ∧ Denotes c d' m' := by
  have hupdate : ∀ key f release, .ok (Prod.map id Answer.status (m.update c key f)) =
      (.ok (m', a) : Except Misuse _) → ∃ d',
        (.ok (Prod.map id Answer.status (d.update c key f release)) : Except Fault _) = .ok (d', a) ∧
          Denotes c d' m' := by
    rintro key f release ⟨⟩
    have hstep := h.update hc key f release
    exact ⟨_, congrArg _ (Prod.ext rfl (congrArg Answer.status hstep.2)), hstep.1⟩
  have hremove : ∀ key condFunc, .ok (Prod.map id Answer.value (m.condRemove c key condFunc)) =
      (.ok (m', a) : Except Misuse _) → ∃ d',
        (.ok (Prod.map id Answer.value (d.condRemove c key condFunc)) : Except Fault _) =
          .ok (d', a) ∧ Denotes c d' m' := by
    rintro key condFunc ⟨⟩
    have hstep := h.condRemove hc key condFunc
    exact ⟨_, congrArg _ (Prod.ext rfl (congrArg Answer.value hstep.2)), hstep.1⟩
  cases op with
  | count =>
    cases hm
    exact ⟨d, by rw [Dictionary.exec, h.size], h⟩
  | insert key value mem =>
    obtain ⟨⟨m'', r⟩, hins, heq⟩ := exists_of_map_eq_ok hm
    cases heq
    obtain ⟨d', hd, hdenotes⟩ := h.insert hc hins
    exact ⟨d', by rw [Dictionary.exec, hd]; rfl, hdenotes⟩
  | search key =>
    cases hm
    exact ⟨d, by rw [Dictionary.exec, h.search_eq], h⟩
  | change key value => exact hupdate key _ _ hm
  | inc key value => exact hupdate key _ _ hm
  | dec key value => exact hupdate key _ _ hm
  | remove key => exact hremove key _ hm
  | condRemove key condFunc => exact hremove key _ hm

/-- **Finite maps.** -/
theorem petHtable_finiteMap {minSize : UInt32} (hsize : minSize ≤ (1 : UInt32) <<< 30) :
    ∃ s, petCreateHtable minSize c.hashFn c.eqFn c.valFreeFn c.keyFreeFn true true =
        .ok (some s) ∧
      ∀ ops m log, run (logged (FiniteMap.exec c)) (.empty, []) ops = .ok (m, log) →
        ∃ s', run (logged exec) (s, []) ops = .ok (s', log) ∧
          petHtableCount s' = .ofNat m.size ∧
          ∀ key, petHtableSearch s' key = .ok ((m.lookup key).getD 0) := by
  obtain ⟨s, hs, hnew, -⟩ := petCreateHtable_spec hsize c
  refine ⟨s, hs, fun ops m log hm => ?_⟩
  have hstep : ∀ d m op m' a, Denotes c d m → FiniteMap.exec c m op = .ok (m', a) →
      ∃ d', Dictionary.exec c d op = .ok (d', a) ∧ Denotes c d' m' :=
    fun _ _ _ _ _ h hm => h.exec hc hm
  obtain ⟨d, hd, hdenotes⟩ := run_forward hstep (Denotes.empty c (primeAbove minSize)) hm
  obtain ⟨s', hs', d₀, hholds, hsimilar⟩ := hnew.models.run hc hd
  refine ⟨s', hs', ?_, fun key => ?_⟩
  · rw [petHtableCount_spec hholds, hsimilar.length_eq hc, hdenotes.size]
  · rw [Models.search ⟨d₀, hholds, hsimilar⟩, hdenotes.search_eq]

omit hc in
/-- `busy` keeps to the contract: the table that has grown is a map of 39 keys. -/
theorem petHtable_finiteMap_ptrCallbacks :
    ∃ s s' log, petCreateHtable 16 petHashPtr petCmpPtr true true true true = .ok (some s) ∧
      run (logged exec) (s, []) busy = .ok (s', log) ∧ petHtableCount s' = 39 ∧
      petHtableSearch s' 3 = .ok 0 ∧ petHtableSearch s' 8 = .ok 1 ∧
      petHtableSearch s' 39 = .ok 40 := by
  have hsize : (16 : UInt32) ≤ (1 : UInt32) <<< 30 := by decide
  obtain ⟨s, hs, hruns⟩ := petHtable_finiteMap eqFn_ptrCallbacks hsize
  have hmap : (run (logged (FiniteMap.exec ptrCallbacks)) (.empty, []) busy).map
      (fun r => (r.1.size, r.1.lookup 3, r.1.lookup 8, r.1.lookup 39)) =
      .ok (39, none, some 1, some 40) := by decide +kernel
  obtain ⟨⟨m, log⟩, hm, heq⟩ := exists_of_map_eq_ok hmap
  obtain ⟨hcount, hgone, hchanged, hkept⟩ :
      m.size = 39 ∧ m.lookup 3 = none ∧ m.lookup 8 = some 1 ∧ m.lookup 39 = some 40 := by
    simpa using heq
  obtain ⟨s', hrun, hsize', hsearch⟩ := hruns busy m log hm
  refine ⟨s, s', log, hs, hrun, ?_, ?_, ?_, ?_⟩
  · rw [hsize', hcount]
    rfl
  · rw [hsearch, hgone]
    rfl
  · rw [hsearch, hchanged]
    rfl
  · rw [hsearch, hkept]
    rfl

end SimpleHttp.PetHashtable
