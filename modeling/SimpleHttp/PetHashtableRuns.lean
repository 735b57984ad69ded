import SimpleHttp.PetHashtableGrowth

namespace SimpleHttp.PetHashtable

open Lib

/-!
# A table in use

`exec` is a call of a client, and a run is a list of calls, recorded with what they return.

* `exec_models` — a call does to a table what it does to the dictionary behind it.
* `petHtable_refines` — so every run of a new table returns what the dictionary returns, and
  goes wrong exactly where an insertion wants a larger table, `calloc` has none and `realloc` has.
* `petHtableInsert_reverses` — growth turns the order of the bindings of one key around.
* `petHtable_load` — while memory lasts, the load factor stays at .65.
-/

/-- One call of a client, and what it returns. -/
def exec (s : State) : Op → Except Fault (State × Answer)
  | .count => .ok (s, .count (petHtableCount s))
  | .insert key value mem => (petHtableInsert s key value mem).map (Prod.map id .status)
  | .search key => (petHtableSearch s key).map fun value => (s, .value value)
  | .change key value => (petHtableChange s key value).map (Prod.map id .status)
  | .inc key value => (petHtableInc s key value).map (Prod.map id .status)
  | .dec key value => (petHtableDec s key value).map (Prod.map id .status)
  | .remove key => (petHtableRemove s key).map (Prod.map id .value)
  | .condRemove key condFunc => (petHtableCondRemove s key condFunc).map (Prod.map id .value)

variable {c : Callbacks} {s : State} {d : Dictionary}

/-- **Count**, as a 32-bit number. -/
theorem petHtableCount_spec (h : Holds c s d) : petHtableCount s = .ofNat d.bindings.length := by
  obtain ⟨b, hs, rfl, rfl⟩ := h
  rw [petHtableCount, hs.count, asDictionary, bindings, List.length_map]

/-- A call to a table that holds exactly these bindings. -/
theorem exec_holds (h : Holds c s d) (op : Op) : Matched (Models c) (exec s op) (d.exec c op) := by
  have hupdate : ∀ key f release, Matched (Models c)
      ((updateValue s key f release).map (Prod.map id Answer.status))
      (.ok (Prod.map id Answer.status (d.update c key f release))) := by
    intro key f release
    obtain ⟨s', hrun, hholds⟩ := updateValue_spec h key f release
    rw [hrun]
    exact ⟨hholds.models, rfl⟩
  have hremove : ∀ key condFunc, Matched (Models c)
      ((petHtableCondRemove s key condFunc).map (Prod.map id Answer.value))
      (.ok (Prod.map id Answer.value (d.condRemove c key condFunc))) := by
    intro key condFunc
    obtain ⟨s', hrun, hholds⟩ := condRemove_spec h key condFunc
    rw [hrun]
    exact ⟨hholds.models, rfl⟩
  cases op with
  | count => exact ⟨h.models, congrArg Answer.count (petHtableCount_spec h)⟩
  | insert key value mem => exact (petHtableInsert_spec h key value mem).map Answer.status
  | search key =>
    rw [exec, petHtableSearch_spec h]
    exact ⟨h.models, rfl⟩
  | change key value =>
    obtain ⟨b, hs, rfl, rfl⟩ := h
    exact hupdate ..
  | inc key value => exact hupdate ..
  | dec key value => exact hupdate ..
  | remove key => exact hremove ..
  | condRemove key condFunc => exact hremove ..

/-- **Calls.** -/
theorem exec_models (hc : Dictionary.EqFn c) (h : Models c s d) (op : Op) :
    Matched (Models c) (exec s op) (d.exec c op) := by
  obtain ⟨d₀, hholds, hsimilar⟩ := h
  exact (exec_holds hholds op).comp (hsimilar.exec hc op) fun _ _ _ => Models.similar

/-- **Runs.** -/
theorem run_models (hc : Dictionary.EqFn c) (h : Models c s d) (ops : List Op) :
    Matched (Models c) (run (logged exec) (s, []) ops)
      (run (logged (Dictionary.exec c)) (d, []) ops) :=
  run_matched (fun _ _ op h => exec_models hc h op) h [] ops

/-- A run of the dictionary is one of the table. -/
theorem Models.run (hc : Dictionary.EqFn c) (h : Models c s d) {ops : List Op} {d' : Dictionary}
    {log : List (Op × Answer)}
    (hd : Lib.run (logged (Dictionary.exec c)) (d, []) ops = .ok (d', log)) :
    ∃ s', Lib.run (logged exec) (s, []) ops = .ok (s', log) ∧ Models c s' d' := by
  have hmatched := run_models hc h ops
  rw [hd] at hmatched
  exact hmatched.of_ok

/-- A run of the table is one of its dictionary. -/
theorem Models.run_dictionary (hc : Dictionary.EqFn c) (h : Models c s d) {ops : List Op}
    {s' : State} {log : List (Op × Answer)}
    (hs : Lib.run (logged exec) (s, []) ops = .ok (s', log)) :
    ∃ d', Lib.run (logged (Dictionary.exec c)) (d, []) ops = .ok (d', log) ∧ Models c s' d' := by
  have hmatched := run_models hc h ops
  rw [hs] at hmatched
  exact hmatched.of_ok_left

/-- A table finds what its dictionary finds. -/
theorem Models.search (h : Models c s d) (key : UInt64) :
    petHtableSearch s key = .ok (d.search c key) := by
  obtain ⟨d₀, hholds, hsimilar⟩ := h
  rw [petHtableSearch_spec hholds, Dictionary.search, hsimilar.find?_eq, Dictionary.search]

/-- The table counts as many entries as its dictionary has bindings. -/
theorem Models.count (hc : Dictionary.EqFn c) (h : Models c s d) :
    petHtableCount s = .ofNat d.bindings.length := by
  obtain ⟨d₀, hholds, hsimilar⟩ := h
  rw [petHtableCount_spec hholds, hsimilar.length_eq hc]

/-- The table is as long as its dictionary has it. -/
theorem Models.prime (h : Models c s d) : primes[d.primeIndex]? = some s.htable.tableLength := by
  obtain ⟨d₀, ⟨b, hb, -, rfl⟩, hsimilar⟩ := h
  rw [← hsimilar.primeIndex]
  exact hb.shape.prime

/-- The table has released what its dictionary has. -/
theorem Models.released_eq (h : Models c s d) : s.released = d.released := by
  obtain ⟨d₀, ⟨b, -, -, rfl⟩, hsimilar⟩ := h
  exact hsimilar.released

/-- Some table holds these bindings. -/
theorem exists_models (bs : List Binding) (hlength : bs.length ≤ 35) :
    ∃ s, Models ptrCallbacks s ⟨bs, 0, []⟩ := by
  induction bs with
  | nil =>
    have hsize : (16 : UInt32) ≤ (1 : UInt32) <<< 30 := by decide
    obtain ⟨s, -, hholds, -⟩ := petCreateHtable_spec hsize ptrCallbacks
    exact ⟨s, hholds.models⟩
  | cons x bs ih =>
    obtain ⟨s, hs⟩ := ih (Nat.le_of_succ_le hlength)
    have hroom : ¬(⟨bs, 0, []⟩ : Dictionary).Grows := by
      rintro ⟨hlt, -⟩
      rw [UInt32.lt_iff_toNat_lt, UInt32.toNat_ofNat'] at hlt
      change 35 < (bs.length + 1) % UInt32.size at hlt
      have := Nat.mod_le (bs.length + 1) UInt32.size
      rw [List.length_cons] at hlength
      omega
    have hstep := exec_models eqFn_ptrCallbacks hs (.insert x.1 x.2 ⟨true, true, true⟩)
    rw [Dictionary.exec, Dictionary.insert, if_neg hroom] at hstep
    obtain ⟨s', -, hs'⟩ := hstep.of_ok
    exact ⟨s', hs'⟩

/-- **Refinement.**  A new table behaves as the list of its bindings does, in every run. -/
theorem petHtable_refines (hc : Dictionary.EqFn c) {minSize : UInt32}
    (hsize : minSize ≤ (1 : UInt32) <<< 30) :
    ∃ s, petCreateHtable minSize c.hashFn c.eqFn c.valFreeFn c.keyFreeFn true true =
        .ok (some s) ∧
      ∀ ops, Matched (Models c) (run (logged exec) (s, []) ops)
        (run (logged (Dictionary.exec c)) (⟨[], primeAbove minSize, []⟩, []) ops) := by
  obtain ⟨s, hs, hholds, -⟩ := petCreateHtable_spec hsize c
  exact ⟨s, hs, run_models hc hholds.models⟩

/-- A call of `pet_htable_insert` for which there is memory. -/
def inserted (x : Binding) : Op := .insert x.1 x.2 ⟨true, true, true⟩

/-- Forty keys for 53 slots, and some calls behind them. -/
def busy : List Op :=
  (List.range 40).map (fun n => inserted (.ofNat n, .ofNat (n + 1))) ++
    [.remove 3, .search 7, .change 8 1, .count]

/-- The list grows once and has 39 bindings in the end. -/
theorem busy_dictionary :
    ∃ d log, run (logged (Dictionary.exec ptrCallbacks)) (⟨[], primeAbove 16, []⟩, []) busy =
        .ok (d, log) ∧
      (log.drop 40).map Prod.snd = [.value 4, .value 8, .status 0, .count 39] ∧
      d.primeIndex = 1 ∧ d.bindings.length = 39 := by
  have hmap : (run (logged (Dictionary.exec ptrCallbacks)) (⟨[], primeAbove 16, []⟩, []) busy).map
      (fun r => ((r.2.drop 40).map Prod.snd, r.1.primeIndex, r.1.bindings.length)) =
      .ok ([.value 4, .value 8, .status 0, .count 39], 1, 39) := by decide +kernel
  obtain ⟨⟨d, log⟩, hrun, heq⟩ := exists_of_map_eq_ok hmap
  simp only [Prod.mk.injEq] at heq
  exact ⟨d, log, hrun, heq⟩

/-- Keys that are pointers: the new table of 53 slots has 97 in the end. -/
theorem petHtable_refines_ptrCallbacks :
    ∃ s s' log d, petCreateHtable 16 petHashPtr petCmpPtr true true true true = .ok (some s) ∧
      run (logged exec) (s, []) busy = .ok (s', log) ∧
      (log.drop 40).map Prod.snd = [.value 4, .value 8, .status 0, .count 39] ∧
      Models ptrCallbacks s' d ∧ d.primeIndex = 1 ∧ d.bindings.length = 39 := by
  have hsize : (16 : UInt32) ≤ (1 : UInt32) <<< 30 := by decide
  obtain ⟨s, hs, hruns⟩ := petHtable_refines eqFn_ptrCallbacks hsize
  obtain ⟨d, log, hd, hanswers, hend⟩ := busy_dictionary
  have hmatched := hruns busy
  rw [hd] at hmatched
  obtain ⟨s', hrun, hmodels⟩ := hmatched.of_ok
  exact ⟨s, s', log, d, hs, hrun, hanswers, hmodels, hend⟩

/-! ### Duplicate keys -/

/-- **Duplicate keys.**  An insertion that makes the table grow reverses the order in which the
    bindings of every other key are retrieved: a search finds the oldest instead of the latest.  An
    insertion that has no memory for its entry does so too. -/
theorem petHtableInsert_reverses (hc : Dictionary.EqFn c) (h : Models c s d) (hgrows : d.Grows)
    (key value : UInt64) (mem : Memory) (htable : mem.table = true) :
    ∃ s', petHtableInsert s key value mem = .ok (s', if mem.entry then 0 else -1) ∧
      Models c s' ⟨if mem.entry then (key, value) :: d.bindings.reverse else d.bindings.reverse,
        d.primeIndex + 1, d.released⟩ ∧
      ∀ k, same c k key = false ∨ mem.entry = false →
        petHtableSearch s k = .ok ((d.bindings.filter (bound c k)).head?.elim 0 Prod.snd) ∧
        petHtableSearch s' k = .ok ((d.bindings.filter (bound c k)).getLast?.elim 0 Prod.snd) := by
  have hpush : d.grow.push key value mem.entry =
      (⟨if mem.entry then (key, value) :: d.bindings.reverse else d.bindings.reverse,
        d.primeIndex + 1, d.released⟩, if mem.entry then 0 else -1) := by
    cases mem.entry <;> rfl
  have hstep := exec_models hc h (.insert key value mem)
  rw [Dictionary.exec, Dictionary.insert, if_pos hgrows, if_pos htable, hpush] at hstep
  obtain ⟨s', hexec, hs'⟩ := hstep.of_ok
  obtain ⟨⟨s₁, r⟩, hinsert, heq⟩ := exists_of_map_eq_ok hexec
  cases heq
  refine ⟨s₁, hinsert, hs', fun k hk => ⟨?_, ?_⟩⟩
  · rw [h.search, List.head?_filter]
    rfl
  · have hreverse : d.bindings.reverse.find? (bound c k) =
        (d.bindings.filter (bound c k)).getLast? := by
      rw [← List.head?_filter, List.filter_reverse, List.head?_reverse]
    -- the new binding, if there is one, is not a binding of `k`
    have hfind : (if mem.entry then (key, value) :: d.bindings.reverse
        else d.bindings.reverse).find? (bound c k) =
          (d.bindings.filter (bound c k)).getLast? := by
      split
      · rename_i hentry
        have hmiss : ¬bound c k (key, value) = true := by
          rw [bound, ofClass, hk.resolve_right (by simp [hentry])]
          exact Bool.false_ne_true
        rw [List.find?_cons_of_neg hmiss, hreverse]
      · exact hreverse
    rw [← hfind]
    exact hs'.search k

/-- Thirty-four keys with a binding each, and 99 with two. -/
def crowded : List Binding :=
  (99, 2) :: (99, 1) :: (List.range 33).map fun n => (.ofNat n, .ofNat n)

/-- In a table at its limit, 99 has the value 2 until another key is inserted. -/
theorem petHtableInsert_reverses_crowded :
    ∃ s s', petHtableSearch s 99 = .ok 2 ∧
      petHtableInsert s 100 7 ⟨true, false, true⟩ = .ok (s', 0) ∧
      petHtableSearch s' 99 = .ok 1 := by
  obtain ⟨s, hs⟩ := exists_models crowded (by decide)
  obtain ⟨s', hinsert, -, hsearch⟩ :=
    petHtableInsert_reverses eqFn_ptrCallbacks hs (by decide) 100 7 ⟨true, false, true⟩ rfl
  obtain ⟨hlatest, holdest⟩ := hsearch 99 (.inl (by decide))
  exact ⟨s, s', hlatest, hinsert, holdest⟩

/-! ### The load of a table -/

/-- Memory for a larger table is there. -/
def Op.granted : Op → Bool
  | .insert _ _ mem => mem.table
  | _ => true

/-- The bindings are within the limit, or the table is the largest one. -/
def Dictionary.Fits (d : Dictionary) : Prop :=
  (∃ limit, loadFactors[d.primeIndex]? = some limit ∧ d.bindings.length ≤ limit.toNat) ∨
    d.primeIndex = primeTableLen - 1

/-- The limits increase. -/
theorem loadFactors_succ {i : Nat} {limit : UInt32} (h : loadFactors[i]? = some limit)
    (hi : i ≠ primeTableLen - 1) :
    ∃ limit', loadFactors[i + 1]? = some limit' ∧ limit.toNat < limit'.toNat := by
  have hall : ((List.range 25).all fun i =>
      decide ((loadFactors.getD i 0).toNat < (loadFactors.getD (i + 1) 0).toNat)) = true := by
    decide
  have hlt : i < 26 := (List.getElem?_eq_some_iff.mp h).1
  have hi' : i < 25 := Nat.lt_of_le_of_ne (Nat.le_of_lt_succ hlt) hi
  have hnext : i + 1 < loadFactors.length := Nat.succ_lt_succ hi'
  have hless := of_decide_eq_true (List.all_eq_true.mp hall i (List.mem_range.mpr hi'))
  rw [List.getD_eq_getElem?_getD, h, List.getD_eq_getElem?_getD,
    List.getElem?_eq_getElem hnext] at hless
  exact ⟨_, List.getElem?_eq_getElem hnext, hless⟩

/-- One entry more than a limit is counted without a wrap. -/
theorem loadFactors_lt {limit : UInt32} (h : limit ∈ loadFactors) :
    limit.toNat + 1 < UInt32.size := by
  have hall : (loadFactors.all fun limit => decide (limit.toNat + 1 < UInt32.size)) = true := by
    decide
  exact of_decide_eq_true (List.all_eq_true.mp hall limit h)

/-- A limit is .65 of its prime, rounded up. -/
theorem loadFactors_ratio {i : Nat} {limit prime : UInt32} (h : loadFactors[i]? = some limit)
    (hprime : primes[i]? = some prime) : limit.toNat * 100 < prime.toNat * 65 + 100 := by
  have hall : ((List.range 26).all fun i => decide
      ((loadFactors.getD i 0).toNat * 100 < (primes.getD i 0).toNat * 65 + 100)) = true := by decide
  have hlt : i < 26 := (List.getElem?_eq_some_iff.mp h).1
  have hless := of_decide_eq_true (List.all_eq_true.mp hall i (List.mem_range.mpr hlt))
  rw [List.getD_eq_getElem?_getD, h, List.getD_eq_getElem?_getD, hprime] at hless
  exact hless

/-- Fewer bindings fit too. -/
theorem Dictionary.Fits.mono {d' : Dictionary} (h : d.Fits) (hindex : d'.primeIndex = d.primeIndex)
    (hlength : d'.bindings.length ≤ d.bindings.length) : d'.Fits := by
  rw [Fits, hindex]
  rcases h with ⟨limit, hlimit, hle⟩ | hlast
  · exact .inl ⟨limit, hlimit, Nat.le_trans hlength hle⟩
  · exact .inr hlast

/-- With room for one, one fits. -/
theorem Dictionary.Fits.push {key value : UInt64} {entry : Bool}
    (h : (∃ limit, loadFactors[d.primeIndex]? = some limit ∧ d.bindings.length < limit.toNat) ∨
      d.primeIndex = primeTableLen - 1) : (d.push key value entry).1.Fits := by
  rcases h with ⟨limit, hlimit, hlt⟩ | hlast
  · cases entry with
    | false => exact .inl ⟨limit, hlimit, Nat.le_of_lt hlt⟩
    | true => exact .inl ⟨limit, hlimit, hlt⟩
  · cases entry with
    | false => exact .inr hlast
    | true => exact .inr hlast

/-- **Insertion** makes room when it needs it. -/
theorem Dictionary.Fits.insert {d' : Dictionary} {key value : UInt64} {mem : Memory} {r : Int}
    (h : d.Fits) (hmem : mem.table = true) (hins : d.insert key value mem = .ok (d', r)) :
    d'.Fits := by
  rcases Dictionary.insert_cases hins with ⟨hpush, hrefused⟩ | ⟨hpush, hgrows⟩
  · -- there was room, or there is no larger table
    have hstays : ¬d.Grows := fun hgrows => by
      rw [hrefused hgrows] at hmem
      cases hmem
    rw [show d' = (d.push key value mem.entry).1 by rw [hpush]]
    refine .push ?_
    by_cases hlast : d.primeIndex = primeTableLen - 1
    · exact .inr hlast
    · obtain ⟨limit, hlimit, hle⟩ := h.resolve_right hlast
      refine .inl ⟨limit, hlimit, ?_⟩
      have hroom : ¬limit < .ofNat (d.bindings.length + 1) := by
        intro hlt
        refine hstays ⟨?_, hlast⟩
        rwa [List.getD_eq_getElem?_getD, hlimit]
      have hmax := loadFactors_lt (List.mem_of_getElem? hlimit)
      have hsmall : (UInt32.ofNat (d.bindings.length + 1)).toNat = d.bindings.length + 1 :=
        Nat.mod_eq_of_lt (show d.bindings.length + 1 < UInt32.size by omega)
      rw [UInt32.lt_iff_toNat_lt, hsmall] at hroom
      omega
  · -- the next limit is larger
    rw [show d' = (d.grow.push key value mem.entry).1 by rw [hpush]]
    refine .push (.inl ?_)
    obtain ⟨limit, hlimit, hle⟩ := h.resolve_right hgrows.2
    obtain ⟨limit', hlimit', hlt⟩ := loadFactors_succ hlimit hgrows.2
    refine ⟨limit', hlimit', ?_⟩
    rw [Dictionary.grow, List.length_reverse]
    exact Nat.lt_of_le_of_lt hle hlt

/-- **Calls** keep the bindings within the limit. -/
theorem Dictionary.Fits.exec {d' : Dictionary} {op : Op} {a : Answer} (h : d.Fits)
    (hop : op.granted = true) (hexec : d.exec c op = .ok (d', a)) : d'.Fits := by
  have hupdate : ∀ key f release, (d.update c key f release).1.Fits := by
    intro key f release
    rw [Dictionary.update]
    cases d.find? c key with
    | none => exact h
    | some x => exact h.mono rfl (Nat.le_of_eq length_modifyFirst)
  have hremove : ∀ key condFunc, (d.condRemove c key condFunc).1.Fits := by
    intro key condFunc
    rw [Dictionary.condRemove]
    cases d.find? c key with
    | none => exact h
    | some x =>
      dsimp only
      split
      · exact h
      · exact h.mono rfl List.eraseP_sublist.length_le
  cases op with
  | count => cases hexec; exact h
  | insert key value mem =>
    obtain ⟨⟨d'', r⟩, hins, heq⟩ := exists_of_map_eq_ok hexec
    cases heq
    exact h.insert hop hins
  | search key => cases hexec; exact h
  | change key value => cases hexec; exact hupdate key (fun _ => value) c.valFreeFn
  | inc key value => cases hexec; exact hupdate key (· + value) false
  | dec key value => cases hexec; exact hupdate key (· - value) false
  | remove key => cases hexec; exact hremove key none
  | condRemove key condFunc => cases hexec; exact hremove key condFunc

/-- **Load.**  While memory for larger tables is there, no insertion takes the entries past .65 of
    the slots by one entry or more, up to the largest table. -/
theorem petHtable_load (hc : Dictionary.EqFn c) {minSize : UInt32}
    (hsize : minSize ≤ (1 : UInt32) <<< 30) :
    ∃ s, petCreateHtable minSize c.hashFn c.eqFn c.valFreeFn c.keyFreeFn true true =
        .ok (some s) ∧
      ∀ ops s' log, (∀ op ∈ ops, op.granted = true) →
        run (logged exec) (s, []) ops = .ok (s', log) →
        ∃ d, Models c s' d ∧
          ((d.bindings.length * 100 < s'.htable.tableLength.toNat * 65 + 100 ∧
              s'.htable.entryCount.toNat = d.bindings.length) ∨
            s'.htable.tableLength = 1610612741) := by
  obtain ⟨s, hs, hnew, -⟩ := petCreateHtable_spec hsize c
  refine ⟨s, hs, fun ops s' log hops hrun => ?_⟩
  obtain ⟨d, hd, hmodels⟩ := hnew.models.run_dictionary hc hrun
  -- along the run of the dictionary, since the table only looks like it
  have hfits : d.Fits := by
    refine run_invariant (P := fun st : Dictionary × List (Op × Answer) =>
      (∀ e ∈ st.2, e.1.granted = true) → st.1.Fits) (fun st op st' hst hop hlog => ?_) (fun _ => ?_)
      hd fun e he => hops e.1 (mem_inputs_of_logged hd he)
    · obtain ⟨⟨d₁, a⟩, hexec, rfl⟩ := exists_of_map_eq_ok hop
      exact (hst fun e he => hlog e (List.mem_append_left _ he)).exec
        (hlog (op, a) (List.mem_append_right _ List.mem_cons_self)) hexec
    · have hlt : primeAbove minSize < loadFactors.length := (primeAbove_lt hsize).1
      exact .inl ⟨_, List.getElem?_eq_getElem hlt, Nat.zero_le _⟩
  refine ⟨d, hmodels, ?_⟩
  have hprime := hmodels.prime
  rcases hfits with ⟨limit, hlimit, hle⟩ | hlast
  · left
    have hratio := loadFactors_ratio hlimit hprime
    have hmax := loadFactors_lt (List.mem_of_getElem? hlimit)
    have hcount : s'.htable.entryCount = .ofNat d.bindings.length := hmodels.count hc
    refine ⟨by omega, ?_⟩
    -- so few entries are counted without a wrap
    rw [hcount]
    exact Nat.mod_eq_of_lt (show d.bindings.length < UInt32.size by omega)
  · right
    rw [hlast] at hprime
    exact (Option.some.inj hprime).symm

/-- After `busy`, 39 entries have 97 slots. -/
theorem petHtable_load_ptrCallbacks :
    ∃ s s' log d, petCreateHtable 16 petHashPtr petCmpPtr true true true true = .ok (some s) ∧
      run (logged exec) (s, []) busy = .ok (s', log) ∧ s'.htable.tableLength = 97 ∧
      Models ptrCallbacks s' d ∧
      d.bindings.length * 100 < s'.htable.tableLength.toNat * 65 + 100 ∧
      s'.htable.entryCount.toNat = d.bindings.length := by
  have hsize : (16 : UInt32) ≤ (1 : UInt32) <<< 30 := by decide
  obtain ⟨s, hs, hnew, -⟩ := petCreateHtable_spec hsize ptrCallbacks
  obtain ⟨s₀, hs₀, hload⟩ := petHtable_load eqFn_ptrCallbacks hsize
  obtain rfl : s = s₀ := Option.some.inj (Except.ok.inj (hs.symm.trans hs₀))
  obtain ⟨d₀, log, hd₀, -, hindex, -⟩ := busy_dictionary
  obtain ⟨s', hrun, hmodels₀⟩ := hnew.models.run eqFn_ptrCallbacks hd₀
  have hslots : s'.htable.tableLength = 97 := by
    have hprime := hmodels₀.prime
    rw [hindex] at hprime
    exact (Option.some.inj hprime).symm
  obtain ⟨d, hmodels, hfits⟩ := hload busy s' log (by decide) hrun
  obtain ⟨hbound, hcount⟩ := hfits.resolve_right (by rw [hslots]; decide)
  exact ⟨s, s', log, d, hs, hrun, hslots, hmodels, hbound, hcount⟩

end SimpleHttp.PetHashtable
