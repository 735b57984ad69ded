import SimpleHttp.PetHashtableRuns

namespace SimpleHttp.PetHashtable

open Lib

/-!
# From `pet_create_htable` to `pet_free_htable`

* `petFreeHtable_spec` — the loops of `pet_free_htable` meet every entry once, and leave an empty
  heap.
* `Balanced` — keys and values that have come in are in the table, have been released or have been
  handed back; every call keeps this so.
* `petHtable_lifetime` — so over the life of a table every key is released as often as it was
  inserted, and no value is lost.
-/

variable {c : Callbacks} {s : State} {d : Dictionary}

/-! ### The end -/

/-- What `pet_free_htable` does for an entry. -/
def releases (c : Callbacks) (x : Binding) : List Release :=
  (if c.keyFreeFn then [.key x.1] else []) ++ if c.valFreeFn then [.value x.2] else []

/-- One chain: its entries are freed, and their keys and values released. -/
theorem freeChain_spec {t : Htable} {heap : Heap HashEntry} {p : Ptr} {l : Bucket}
    (hchain : Chain heap p l) (hnd : (addrs l).Nodup) (released : List Release) {fuel : Nat}
    (hfuel : l.length < fuel) :
    ∃ heap', freeChain t fuel p (heap, released) =
        .ok (heap', released ++ l.flatMap fun x => releases t.toCallbacks x.2.binding) ∧
      heap'.next = heap.next ∧
      ∀ a, heap'.cells a = if a ∈ addrs l then none else heap.cells a := by
  induction l generalizing heap p released fuel with
  | nil =>
    obtain ⟨fuel, rfl⟩ := Nat.exists_eq_succ_of_ne_zero (Nat.ne_of_gt hfuel)
    cases hchain
    exact ⟨heap, by rw [List.flatMap_nil, List.append_nil]; rfl, rfl, fun _ => rfl⟩
  | cons x l ih =>
    obtain ⟨a, x⟩ := x
    obtain ⟨fuel, rfl⟩ :=
      Nat.exists_eq_succ_of_ne_zero (Nat.ne_of_gt (Nat.zero_lt_of_lt hfuel))
    obtain ⟨rfl, n, hc, hrest⟩ := hchain
    obtain ⟨ha, hnd⟩ : a ∉ addrs l ∧ (addrs l).Nodup := List.nodup_cons.mp hnd
    obtain ⟨heap', hrun, hnext, hcells⟩ := ih (hrest.free ha) hnd
      (released ++ releases t.toCallbacks x.binding) (Nat.lt_of_succ_lt_succ hfuel)
    refine ⟨heap', ?_, hnext, fun a' => ?_⟩
    · have hstep : freeChain t (fuel + 1) (some a) (heap, released) = freeChain t fuel n
          (heap.free a, released ++ releases t.toCallbacks x.binding) := by
        rw [freeChain, deref_eq hc, ok_bind, releases]
        cases t.keyFreeFn <;> cases t.valFreeFn <;> simp [Item.binding]
      rw [hstep, hrun, List.flatMap_cons, List.append_assoc]
    · rw [hcells]
      by_cases ha' : a' = a
      · subst ha'
        rw [if_neg ha, Heap.cells_free_self, addrs_cons, if_pos List.mem_cons_self]
      · rw [Heap.cells_free_of_ne _ ha', addrs_cons]
        simp only [List.mem_cons, ha', false_or]

/-- **Destruction.** -/
theorem petFreeHtable_spec (h : Holds c s d) :
    ∃ heap, petFreeHtable s = .ok (heap, d.released ++ d.bindings.flatMap (releases c)) ∧
      ∀ a, ¬heap.Live a := by
  obtain ⟨b, hs, rfl, rfl⟩ := h
  -- by induction on the number of slots that are done
  have hloop : ∀ k ≤ s.htable.size, ∃ heap,
      (List.range k).foldlM (fun (r : Heap HashEntry × List Release) i => do
          freeChain s.htable (r.1.next + 1) (← slot s.htable.table i) r) (s.heap, s.released) =
        .ok (heap, s.released ++
          (rows b k).flatMap fun x => releases s.htable.toCallbacks x.2.binding) ∧
      heap.next = s.heap.next ∧
      ∀ a, heap.cells a = if a ∈ addrs (rows b k) then none else s.heap.cells a := by
    intro k
    induction k with
    | zero => exact fun _ => ⟨s.heap, by simp [rows], rfl, fun _ => rfl⟩
    | succ k ih =>
      intro hk
      obtain ⟨heap, hrun, hnext, hcells⟩ := ih (Nat.le_of_succ_le hk)
      obtain ⟨p, hslot, -, hchain⟩ := hs.chain hk
      have hchain' : Chain heap p (b k) := by
        refine hchain.congr fun a ha => ?_
        rw [hcells, if_neg]
        intro hin
        obtain ⟨x, hx, rfl⟩ := List.mem_map.mp hin
        obtain ⟨i, hi, hxi⟩ := mem_rows.mp hx
        exact rows_apart hs.nodup (Nat.lt_trans hi hk) hk (Nat.ne_of_lt hi) (mem_addrs hxi) ha
      have hfuel : (b k).length < heap.next + 1 := by
        rw [hnext]
        exact hs.length_lt hk
      obtain ⟨heap', hfree, hnext', hcells'⟩ := freeChain_spec (t := s.htable) hchain'
        (nodup_rows hs.nodup hk) (s.released ++
          (rows b k).flatMap fun x => releases s.htable.toCallbacks x.2.binding) hfuel
      refine ⟨heap', ?_, hnext'.trans hnext, fun a => ?_⟩
      · rw [List.range_succ, List.foldlM_append, hrun, ok_bind, List.foldlM_cons, hslot, ok_bind,
          hfree, rows_succ, List.flatMap_append, List.append_assoc]
        rfl
      · rw [hcells', hcells, rows_succ, addrs_append]
        simp only [List.mem_append]
        by_cases hk : a ∈ addrs (b k) <;> simp [hk]
  obtain ⟨heap, hrun, -, hcells⟩ := hloop s.htable.size (Nat.le_refl _)
  refine ⟨heap, ?_, fun a ha => ?_⟩
  · rw [asDictionary, bindings, List.flatMap_map]
    exact hrun
  · rw [Heap.Live, hcells] at ha
    split at ha
    · cases ha
    · rename_i hout
      exact hout (hs.owned a ha)

/-! ### What comes in and what goes out -/

/-- A call that has put `key` into the table. -/
def insertsKey (key : UInt64) : Op × Answer → Bool
  | (.insert k _ _, .status r) => r == 0 && k == key
  | _ => false

/-- A call that has put `value` into the table. -/
def takesValue (value : UInt64) : Op × Answer → Bool
  | (.insert _ v _, .status r) => r == 0 && v == value
  | (.change _ v, .status r) => r == 0 && v == value
  | _ => false

/-- A call that has handed `value` back. -/
def returnsValue (value : UInt64) : Op × Answer → Bool
  | (.remove _, .value v) => v == value
  | (.condRemove _ _, .value v) => v == value
  | _ => false

/-- A call for tables that count. -/
def Op.counts : Op → Bool
  | .inc .. => true
  | .dec .. => true
  | _ => false

namespace Dictionary

/-- How often a key is in the table or has been released. -/
def keyCount (d : Dictionary) (key : UInt64) : Nat :=
  d.released.count (.key key) + (d.bindings.map Prod.fst).count key

/-- How often a value is in the table or has been released. -/
def valueCount (d : Dictionary) (value : UInt64) : Nat :=
  d.released.count (.value value) + (d.bindings.map Prod.snd).count value

end Dictionary

/-- The books.  `NULL` stands for no value. -/
structure Balanced (c : Callbacks) (d : Dictionary) (log : List (Op × Answer)) : Prop where
  keys : c.keyFreeFn = true → ∀ key, d.keyCount key = log.countP (insertsKey key)
  values : c.valFreeFn = true → (∀ e ∈ log, e.1.counts = false) → ∀ value ≠ 0,
    d.valueCount value + log.countP (returnsValue value) = log.countP (takesValue value)

/-- What one call may do to the books. -/
structure Books (c : Callbacks) (d d' : Dictionary) (e : Op × Answer) : Prop where
  keys : c.keyFreeFn = true → ∀ key, d'.keyCount key =
    d.keyCount key + if insertsKey key e then 1 else 0
  values : c.valFreeFn = true → e.1.counts = false → ∀ value ≠ 0,
    d'.valueCount value + (if returnsValue value e then 1 else 0) =
      d.valueCount value + if takesValue value e then 1 else 0

/-- One call more. -/
theorem Balanced.concat {d' : Dictionary} {log : List (Op × Answer)} {e : Op × Answer}
    (h : Balanced c d log) (he : Books c d d' e) : Balanced c d' (log ++ [e]) := by
  have hcount : ∀ p : Op × Answer → Bool,
      (log ++ [e]).countP p = log.countP p + if p e then 1 else 0 := fun p => by
    rw [List.countP_append, List.countP_singleton]
  refine ⟨fun hfree key => ?_, fun hfree hcounts value hvalue => ?_⟩
  · rw [he.keys hfree, h.keys hfree, hcount]
  · have hbefore := h.values hfree (fun x hx => hcounts x (List.mem_append_left _ hx)) value hvalue
    have hcall := he.values hfree (hcounts e (List.mem_append_right _ List.mem_cons_self)) value hvalue
    rw [hcount, hcount]
    omega

/-- A call that neither takes nor gives. -/
theorem Books.same {e : Op × Answer} (hin : ∀ key, insertsKey key e = false)
    (htakes : ∀ value, takesValue value e = false)
    (hreturns : ∀ value ≠ 0, returnsValue value e = false) : Books c d d e :=
  ⟨fun _ key => by rw [hin]; rfl, fun _ _ value hvalue => by rw [htakes, hreturns value hvalue]⟩

/-- Growth keeps the keys. -/
theorem keyCount_grow (key : UInt64) : d.grow.keyCount key = d.keyCount key := by
  rw [Dictionary.keyCount, Dictionary.grow, List.map_reverse, List.count_reverse]
  rfl

theorem valueCount_grow (value : UInt64) : d.grow.valueCount value = d.valueCount value := by
  rw [Dictionary.valueCount, Dictionary.grow, List.map_reverse, List.count_reverse]
  rfl

/-- What is put in front is on the books. -/
theorem books_push (key value : UInt64) (mem : Memory) :
    Books c d (d.push key value mem.entry).1
      (.insert key value mem, .status (d.push key value mem.entry).2) := by
  rw [Dictionary.push]
  cases mem.entry with
  | false => exact .same (fun _ => rfl) (fun _ => rfl) fun _ _ => rfl
  | true =>
    refine ⟨fun _ k => ?_, fun _ _ v _ => ?_⟩
    · rw [if_pos rfl, Dictionary.keyCount, List.map_cons, List.count_cons, insertsKey,
        Dictionary.keyCount]
      cases key == k <;> rfl
    · rw [if_pos rfl, Dictionary.valueCount, List.map_cons, List.count_cons, takesValue,
        Dictionary.valueCount]
      cases value == v <;> rfl

/-- **Insertion**, with or without growth. -/
theorem books_insert {key value : UInt64} {mem : Memory} {d' : Dictionary} {r : Int}
    (h : d.insert key value mem = .ok (d', r)) :
    Books c d d' (.insert key value mem, .status r) := by
  rcases Dictionary.insert_cases h with ⟨hpush, -⟩ | ⟨hpush, -⟩
  · have hbooks := books_push (c := c) (d := d) key value mem
    rwa [hpush] at hbooks
  · have hbooks := books_push (c := c) (d := d.grow) key value mem
    rw [hpush] at hbooks
    refine ⟨fun hfree k => ?_, fun hfree hcounts v hv => ?_⟩
    · have hkeys := hbooks.keys hfree k
      rwa [keyCount_grow] at hkeys
    · have hvalues := hbooks.values hfree hcounts v hv
      rwa [valueCount_grow] at hvalues

/-- The first binding of a key, and what is around it. -/
theorem Dictionary.find?_split {key : UInt64} {x : Binding} (h : d.find? c key = some x) :
    ∃ l₁ l₂, d.bindings = l₁ ++ x :: l₂ ∧ (∀ y ∈ l₁, bound c key y = false) ∧
      bound c key x = true := by
  obtain ⟨hx, l₁, l₂, hsplit, hno⟩ := List.find?_eq_some_iff_append.mp h
  exact ⟨l₁, l₂, hsplit, by simpa using hno, hx⟩

@[simp] theorem key_beq_key (k l : UInt64) : (Release.key k == .key l) = (k == l) := by
  rw [Bool.eq_iff_iff, beq_iff_eq, beq_iff_eq, Release.key.injEq]

@[simp] theorem value_beq_value (v w : UInt64) : (Release.value v == .value w) = (v == w) := by
  rw [Bool.eq_iff_iff, beq_iff_eq, beq_iff_eq, Release.value.injEq]

/-- An update keeps the keys. -/
theorem keyCount_update (key : UInt64) (f : UInt64 → UInt64) (release : Bool) (k : UInt64) :
    (d.update c key f release).1.keyCount k = d.keyCount k := by
  rw [Dictionary.update]
  cases hfind : d.find? c key with
  | none => rfl
  | some x =>
    have hkeys : (modifyFirst (bound c key) (fun y => (y.1, f y.2)) d.bindings).map Prod.fst =
        d.bindings.map Prod.fst :=
      map_key_modifyFirst _ (g := fun y : Binding => (y.1, f y.2)) (fun _ => rfl) _
    simp only [Dictionary.keyCount, hkeys]
    cases release with
    | false => rfl
    | true => simp

/-- The old value is released and the new one takes its place. -/
theorem valueCount_update {key : UInt64} {x : Binding} (hfind : d.find? c key = some x)
    (f : UInt64 → UInt64) (v : UInt64) :
    (d.update c key f true).1.valueCount v =
      d.valueCount v + if f x.2 == v then 1 else 0 := by
  obtain ⟨l₁, l₂, hsplit, hno, hx⟩ := Dictionary.find?_split hfind
  rw [Dictionary.update, hfind]
  dsimp only
  rw [Dictionary.valueCount, Dictionary.valueCount, hsplit, modifyFirst_append_cons hno hx,
    if_pos rfl]
  simp only [List.count_append, List.map_append, List.map_cons, List.count_cons, List.count_nil,
    value_beq_value]
  omega

/-- **Change**: one value comes in, another is released. -/
theorem books_change (key value : UInt64) :
    Books c d (d.update c key (fun _ => value) c.valFreeFn).1
      (.change key value, .status (d.update c key (fun _ => value) c.valFreeFn).2) := by
  refine ⟨fun _ k => keyCount_update .., fun hfree _ v _ => ?_⟩
  rw [hfree]
  cases hfind : d.find? c key with
  | none =>
    rw [Dictionary.update, hfind]
    rfl
  | some x =>
    rw [valueCount_update hfind, Dictionary.update, hfind]
    rfl

/-- `inc` and `dec` put values in that nobody has given; the keys stay. -/
theorem books_count (key : UInt64) (f : UInt64 → UInt64) {e : Op × Answer}
    (hin : ∀ k, insertsKey k e = false) (hcounts : e.1.counts = true) :
    Books c d (d.update c key f false).1 e where
  keys _ k := by rw [hin]; exact keyCount_update ..
  values _ hno := by rw [hcounts] at hno; cases hno

/-- **Removal**: the key is released, the value handed back. -/
theorem books_condRemove (key : UInt64) (condFunc : Option (UInt64 → Bool)) {e : Op × Answer}
    (hin : ∀ k, insertsKey k e = false) (htakes : ∀ v, takesValue v e = false)
    (hreturns : ∀ v, returnsValue v e = ((d.condRemove c key condFunc).2 == v)) :
    Books c d (d.condRemove c key condFunc).1 e := by
  rw [Dictionary.condRemove] at hreturns ⊢
  have hnull : ∀ v : UInt64, v ≠ 0 → (0 == v) = false := fun v hv =>
    beq_eq_false_iff_ne.mpr (Ne.symm hv)
  cases hfind : d.find? c key with
  | none =>
    rw [hfind] at hreturns
    exact .same hin htakes fun v hv => (hreturns v).trans (hnull v hv)
  | some x =>
    rw [hfind] at hreturns
    dsimp only at hreturns ⊢
    split
    · rename_i hcond
      simp only [hcond, if_true] at hreturns
      exact .same hin htakes fun v hv => (hreturns v).trans (hnull v hv)
    · rename_i hcond
      simp only [if_neg hcond] at hreturns
      obtain ⟨l₁, l₂, hsplit, hno, hx⟩ := Dictionary.find?_split hfind
      have hgone : (l₁ ++ x :: l₂).eraseP (bound c key) = l₁ ++ l₂ := eraseP_append_cons hno hx
      refine ⟨fun hfree k => ?_, fun _ _ v _ => ?_⟩
      · -- the key of the binding is released
        rw [hin]
        simp only [Dictionary.keyCount, hsplit, hgone, hfree, if_true, List.count_append,
          List.map_append, List.map_cons, List.count_cons, List.count_nil, key_beq_key,
          Bool.false_eq_true, if_false]
        omega
      · -- its value is handed back
        have hreleased : (if c.keyFreeFn then d.released ++ [.key x.1] else d.released).count
            (.value v) = d.released.count (.value v) := by
          split
          · simp
          · rfl
        rw [htakes, hreturns]
        simp only [Dictionary.valueCount, hsplit, hgone, hreleased, List.map_append, List.map_cons,
          List.count_append, List.count_cons, Bool.false_eq_true, if_false]
        omega

/-- **Calls** keep the books balanced. -/
theorem Balanced.exec {d' : Dictionary} {op : Op} {a : Answer} {log : List (Op × Answer)}
    (h : Balanced c d log) (hop : d.exec c op = .ok (d', a)) :
    Balanced c d' (log ++ [(op, a)]) := by
  refine h.concat ?_
  cases op with
  | count =>
    cases hop
    exact .same (fun _ => rfl) (fun _ => rfl) fun _ _ => rfl
  | insert key value mem =>
    obtain ⟨⟨d'', r⟩, hins, heq⟩ := exists_of_map_eq_ok hop
    cases heq
    exact books_insert hins
  | search key =>
    cases hop
    exact .same (fun _ => rfl) (fun _ => rfl) fun _ _ => rfl
  | change key value =>
    cases hop
    exact books_change key value
  | inc key value =>
    cases hop
    exact books_count key (· + value) (fun _ => rfl) rfl
  | dec key value =>
    cases hop
    exact books_count key (· - value) (fun _ => rfl) rfl
  | remove key =>
    cases hop
    exact books_condRemove key none (fun _ => rfl) (fun _ => rfl) fun _ => rfl
  | condRemove key condFunc =>
    cases hop
    exact books_condRemove key condFunc (fun _ => rfl) (fun _ => rfl) fun _ => rfl

/-- **Runs** keep the books balanced. -/
theorem Balanced.run {primeIndex : Nat} {ops : List Op} {d' : Dictionary}
    {log : List (Op × Answer)}
    (hrun : run (logged (Dictionary.exec c)) (⟨[], primeIndex, []⟩, []) ops = .ok (d', log)) :
    Balanced c d' log := by
  refine run_invariant (P := fun st : Dictionary × List (Op × Answer) => Balanced c st.1 st.2)
    (fun st op st' hst hop => ?_) ?_ hrun
  · obtain ⟨⟨d₁, a⟩, hexec, rfl⟩ := exists_of_map_eq_ok hop
    exact hst.exec hexec
  · exact ⟨fun _ _ => rfl, fun _ _ _ _ => rfl⟩

/-- The keys that the end of the table releases. -/
theorem count_key_releases (hfree : c.keyFreeFn = true) (l : List Binding) (key : UInt64) :
    (l.flatMap (releases c)).count (.key key) = (l.map Prod.fst).count key := by
  induction l with
  | nil => rfl
  | cons x l ih =>
    rw [List.flatMap_cons, List.count_append, ih, List.map_cons, List.count_cons, releases, hfree]
    cases c.valFreeFn <;> simp [List.count_cons, Nat.add_comm]

theorem count_value_releases (hfree : c.valFreeFn = true) (l : List Binding) (value : UInt64) :
    (l.flatMap (releases c)).count (.value value) = (l.map Prod.snd).count value := by
  induction l with
  | nil => rfl
  | cons x l ih =>
    rw [List.flatMap_cons, List.count_append, ih, List.map_cons, List.count_cons, releases, hfree]
    cases c.keyFreeFn <;> simp [List.count_cons, Nat.add_comm]

/-- **Lifetime.**  A table that is created, used and freed leaves no entry behind, releases every
    key as often as it was inserted, and every value that was not handed back as often as it was
    put in. -/
theorem petHtable_lifetime (hc : Dictionary.EqFn c) {minSize : UInt32}
    (hsize : minSize ≤ (1 : UInt32) <<< 30) :
    ∃ s, petCreateHtable minSize c.hashFn c.eqFn c.valFreeFn c.keyFreeFn true true =
        .ok (some s) ∧
      ∀ ops s' log, run (logged exec) (s, []) ops = .ok (s', log) →
        ∃ heap released, petFreeHtable s' = .ok (heap, released) ∧ (∀ a, ¬heap.Live a) ∧
          (c.keyFreeFn = true →
            ∀ key, released.count (.key key) = log.countP (insertsKey key)) ∧
          (c.valFreeFn = true → (∀ op ∈ ops, op.counts = false) → ∀ value ≠ 0,
            released.count (.value value) + log.countP (returnsValue value) =
              log.countP (takesValue value)) := by
  obtain ⟨s, hs, hnew, -⟩ := petCreateHtable_spec hsize c
  refine ⟨s, hs, fun ops s' log hrun => ?_⟩
  obtain ⟨d, hd, d₀, hholds, hsimilar⟩ := hnew.models.run_dictionary hc hrun
  obtain ⟨heap, hfree, hempty⟩ := petFreeHtable_spec hholds
  have hbalanced := Balanced.run hd
  have hperm := hsimilar.bindings.perm (Dictionary.same_equivalence hc)
  refine ⟨heap, _, hfree, hempty, fun hkey key => ?_, fun hval hops value hvalue => ?_⟩
  · rw [List.count_append, count_key_releases hkey, hsimilar.released, ← hbalanced.keys hkey,
      (hperm.map Prod.fst).count_eq]
    rfl
  · have hlog : ∀ e ∈ log, e.1.counts = false := fun e he =>
      hops e.1 (mem_inputs_of_logged hrun he)
    rw [List.count_append, count_value_releases hval, hsimilar.released,
      ← hbalanced.values hval hlog value hvalue, (hperm.map Prod.snd).count_eq]
    rfl

/-- The table of `busy`: 3 has been released by its removal, 7 is released with the table; the value
    4 was handed back, and the 9 released when 8 got another value. -/
theorem petHtable_lifetime_ptrCallbacks :
    ∃ s s' log heap released,
      petCreateHtable 16 petHashPtr petCmpPtr true true true true = .ok (some s) ∧
      run (logged exec) (s, []) busy = .ok (s', log) ∧
      petFreeHtable s' = .ok (heap, released) ∧ (∀ a, ¬heap.Live a) ∧
      released.count (.key 3) = 1 ∧ released.count (.key 7) = 1 ∧
      released.count (.value 4) = 0 ∧ released.count (.value 9) = 1 := by
  have hsize : (16 : UInt32) ≤ (1 : UInt32) <<< 30 := by decide
  obtain ⟨s, hs, hruns⟩ := petHtable_lifetime eqFn_ptrCallbacks hsize
  obtain ⟨s₀, hs₀, hnew, -⟩ := petCreateHtable_spec hsize ptrCallbacks
  obtain rfl : s = s₀ := Option.some.inj (Except.ok.inj (hs.symm.trans hs₀))
  have hmap : (run (logged (Dictionary.exec ptrCallbacks)) (⟨[], primeAbove 16, []⟩, []) busy).map
      (fun r => (r.2.countP (insertsKey 3), r.2.countP (insertsKey 7),
        r.2.countP (returnsValue 4), r.2.countP (takesValue 4),
        r.2.countP (returnsValue 9), r.2.countP (takesValue 9))) =
      .ok (1, 1, 1, 1, 0, 1) := by decide +kernel
  obtain ⟨⟨d, log⟩, hd, heq⟩ := exists_of_map_eq_ok hmap
  simp only [Prod.mk.injEq] at heq
  obtain ⟨hthree, hseven, hreturned, htaken, hreturned', htaken'⟩ := heq
  obtain ⟨s', hrun, -⟩ := hnew.models.run eqFn_ptrCallbacks hd
  obtain ⟨heap, released, hfree, hempty, hkeys, hvalues⟩ := hruns busy s' log hrun
  have hbooks := hvalues rfl (by decide)
  refine ⟨s, s', log, heap, released, hs, hrun, hfree, hempty, ?_, ?_, ?_, ?_⟩
  · rw [hkeys rfl, hthree]
  · rw [hkeys rfl, hseven]
  · have hfour := hbooks 4 (by decide)
    omega
  · have hnine := hbooks 9 (by decide)
    omega

end SimpleHttp.PetHashtable
