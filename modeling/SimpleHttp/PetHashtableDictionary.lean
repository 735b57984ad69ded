import SimpleHttp.Lib.Classes
import SimpleHttp.Lib.Runs
import SimpleHttp.PetHashtable

namespace SimpleHttp.PetHashtable

open Lib

/-!
# What a hash table is for

A `Dictionary` is a list of bindings and the calls of the free functions so far.  Its functions
are those of a hash table, without the heap and without the slots: each works on the first binding
of a key.

* `Dictionary.update`, `Dictionary.condRemove`, `Dictionary.insert` — the functions.
* `Dictionary.exec` — a call, with what it returns.
* `Dictionary.Similar` — dictionaries that no caller tells apart: the bindings of every key are
  the same, in the same order.  `Similar.exec` — calls keep them so.
-/

/-- A key and its value. -/
abbrev Binding := UInt64 × UInt64

/-- Keys that no function tells apart. -/
def same (c : Callbacks) (key₁ key₂ : UInt64) : Bool :=
  spread (c.hashFn key₁) == spread (c.hashFn key₂) && c.eqFn key₁ key₂

/-- The bindings that a function sees which is called with `key`. -/
abbrev bound (c : Callbacks) (key : UInt64) : Binding → Bool := ofClass (same c) Prod.fst key

/-- What a table holds, latest binding first, how large it is and what it has released. -/
structure Dictionary where
  bindings : List Binding
  primeIndex : Nat
  released : List Release

namespace Dictionary

variable (c : Callbacks) (d : Dictionary)

/-- The first binding of a key. -/
def find? (key : UInt64) : Option Binding := d.bindings.find? (bound c key)

/-- `pet_htable_search`; NULL if there is none. -/
def search (key : UInt64) : UInt64 := (d.find? c key).elim 0 Prod.snd

/-- Another value for the first binding of a key. -/
def update (key : UInt64) (f : UInt64 → UInt64) (release : Bool) : Dictionary × Int :=
  match d.find? c key with
  | none => (d, -1)
  | some x =>
      ({ d with
        bindings := modifyFirst (bound c key) (fun y => (y.1, f y.2)) d.bindings
        released := if release then d.released ++ [.value x.2] else d.released }, 0)

/-- The first binding of a key goes, unless the caller's test of its value fails. -/
def condRemove (key : UInt64) (condFunc : Option (UInt64 → Bool)) : Dictionary × UInt64 :=
  match d.find? c key with
  | none => (d, 0)
  | some x =>
      if condFunc.any fun cond => !cond x.2 then (d, 0)
      else
        ({ d with
          bindings := d.bindings.eraseP (bound c key)
          released := if c.keyFreeFn then d.released ++ [.key x.1] else d.released }, x.2)

/-- Whether one binding more exceeds the limit, and there is a larger table. -/
def Grows : Prop :=
  loadFactors.getD d.primeIndex 0 < .ofNat (d.bindings.length + 1) ∧
    d.primeIndex ≠ primeTableLen - 1

instance : Decidable d.Grows := inferInstanceAs (Decidable (_ ∧ _))

/-- The larger table has the bindings in the opposite order. -/
def grow : Dictionary := { d with bindings := d.bindings.reverse, primeIndex := d.primeIndex + 1 }

/-- A binding in front, if there is memory for its entry. -/
def push (key value : UInt64) (entry : Bool) : Dictionary × Int :=
  if entry then ({ d with bindings := (key, value) :: d.bindings }, 0) else (d, -1)

/-- `pet_htable_insert`, whose caller cannot see the slots but does see the order. -/
def insert (key value : UInt64) (mem : Memory) : Except Fault (Dictionary × Int) :=
  if d.Grows then
    if mem.table then .ok (d.grow.push key value mem.entry)
    else if mem.realloc then .error .uninitialized
    else .ok (d.push key value mem.entry)
  else .ok (d.push key value mem.entry)

/-- What an insertion may do. -/
theorem insert_cases {d d' : Dictionary} {key value : UInt64} {mem : Memory} {r : Int}
    (h : d.insert key value mem = .ok (d', r)) :
    d.push key value mem.entry = (d', r) ∧ (d.Grows → mem.table = false) ∨
      d.grow.push key value mem.entry = (d', r) ∧ d.Grows := by
  rw [insert] at h
  split at h
  · rename_i hgrows
    split at h
    · exact .inr ⟨Except.ok.inj h, hgrows⟩
    · rename_i htable
      split at h
      · cases h
      · exact .inl ⟨Except.ok.inj h, fun _ => Bool.eq_false_iff.mpr htable⟩
  · rename_i hgrows
    exact .inl ⟨Except.ok.inj h, fun hg => absurd hg hgrows⟩

end Dictionary

/-- The calls of a client. -/
inductive Op where
  | count
  | insert (key value : UInt64) (mem : Memory)
  | search (key : UInt64)
  | change (key value : UInt64)
  | inc (key value : UInt64)
  | dec (key value : UInt64)
  | remove (key : UInt64)
  | condRemove (key : UInt64) (condFunc : Option (UInt64 → Bool))

/-- What a call returns. -/
inductive Answer where
  | count (n : UInt32)
  | status (n : Int)
  | value (v : UInt64)
  deriving DecidableEq

/-- One call, and what it returns. -/
def Dictionary.exec (c : Callbacks) (d : Dictionary) : Op → Except Fault (Dictionary × Answer)
  | .count => .ok (d, .count (.ofNat d.bindings.length))
  | .insert key value mem => (d.insert key value mem).map (Prod.map id .status)
  | .search key => .ok (d, .value (d.search c key))
  | .change key value => .ok (Prod.map id .status (d.update c key (fun _ => value) c.valFreeFn))
  | .inc key value => .ok (Prod.map id .status (d.update c key (· + value) false))
  | .dec key value => .ok (Prod.map id .status (d.update c key (· - value) false))
  | .remove key => .ok (Prod.map id .value (d.condRemove c key none))
  | .condRemove key condFunc => .ok (Prod.map id .value (d.condRemove c key condFunc))

/-! ### Dictionaries that look the same -/

namespace Dictionary

variable {c : Callbacks} {d d' : Dictionary}

/-- No call tells the two dictionaries apart. -/
structure Similar (c : Callbacks) (d d' : Dictionary) : Prop where
  bindings : ClassEq (same c) Prod.fst d.bindings d'.bindings
  primeIndex : d.primeIndex = d'.primeIndex
  released : d.released = d'.released

theorem Similar.refl (c : Callbacks) (d : Dictionary) : Similar c d d := ⟨.refl _ _ _, rfl, rfl⟩

theorem Similar.trans {d'' : Dictionary} (h : Similar c d d') (h' : Similar c d' d'') :
    Similar c d d'' :=
  ⟨h.bindings.trans h'.bindings, h.primeIndex.trans h'.primeIndex, h.released.trans h'.released⟩

/-- A search finds the same. -/
theorem Similar.find?_eq (h : Similar c d d') (key : UInt64) : d.find? c key = d'.find? c key :=
  h.bindings.find?_eq key

theorem Similar.grow (h : Similar c d d') : Similar c d.grow d'.grow :=
  ⟨h.bindings.reverse, congrArg (· + 1) h.primeIndex, h.released⟩

theorem Similar.push (h : Similar c d d') (key value : UInt64) (entry : Bool) :
    Similar c (d.push key value entry).1 (d'.push key value entry).1 ∧
      (d.push key value entry).2 = (d'.push key value entry).2 := by
  cases entry with
  | false => exact ⟨h, rfl⟩
  | true => exact ⟨⟨h.bindings.cons _, h.primeIndex, h.released⟩, rfl⟩

/-- `eq_fn` is an equivalence. -/
def EqFn (c : Callbacks) : Prop := Equivalence fun key₁ key₂ => c.eqFn key₁ key₂ = true

/-- Keys that no function tells apart are classes, if `eq_fn` is an equivalence. -/
theorem same_equivalence (hc : EqFn c) : Equivalence fun key₁ key₂ => same c key₁ key₂ = true := by
  refine ⟨fun key => ?_, fun {x y} h => ?_, fun {x y z} h h' => ?_⟩
  · exact Bool.and_eq_true_iff.mpr ⟨beq_self_eq_true _, hc.refl key⟩
  · obtain ⟨hhash, heq⟩ := Bool.and_eq_true_iff.mp h
    exact Bool.and_eq_true_iff.mpr ⟨BEq.symm hhash, hc.symm heq⟩
  · obtain ⟨hhash, heq⟩ := Bool.and_eq_true_iff.mp h
    obtain ⟨hhash', heq'⟩ := Bool.and_eq_true_iff.mp h'
    exact Bool.and_eq_true_iff.mpr ⟨BEq.trans hhash hhash', hc.trans heq heq'⟩

variable (hc : EqFn c)
include hc

/-- As many bindings. -/
theorem Similar.length_eq (h : Similar c d d') : d.bindings.length = d'.bindings.length :=
  (h.bindings.perm (same_equivalence hc)).length_eq

/-- The same update keeps dictionaries similar, and returns the same. -/
theorem Similar.update (h : Similar c d d') (key : UInt64) (f : UInt64 → UInt64) (release : Bool) :
    Similar c (d.update c key f release).1 (d'.update c key f release).1 ∧
      (d.update c key f release).2 = (d'.update c key f release).2 := by
  rw [Dictionary.update, Dictionary.update, h.find?_eq, h.released]
  cases d'.find? c key with
  | none => exact ⟨h, rfl⟩
  | some x =>
    exact ⟨⟨h.bindings.modifyFirst (same_equivalence hc) key fun _ => rfl, h.primeIndex, rfl⟩, rfl⟩

/-- The same removal keeps dictionaries similar, and returns the same. -/
theorem Similar.condRemove (h : Similar c d d') (key : UInt64)
    (condFunc : Option (UInt64 → Bool)) :
    Similar c (d.condRemove c key condFunc).1 (d'.condRemove c key condFunc).1 ∧
      (d.condRemove c key condFunc).2 = (d'.condRemove c key condFunc).2 := by
  rw [Dictionary.condRemove, Dictionary.condRemove, h.find?_eq, h.released]
  cases d'.find? c key with
  | none => exact ⟨h, rfl⟩
  | some x =>
    dsimp only
    split
    · exact ⟨h, rfl⟩
    · exact ⟨⟨h.bindings.eraseP (same_equivalence hc) key, h.primeIndex, rfl⟩, rfl⟩

/-- One grows where the other does. -/
theorem Similar.grows_iff (h : Similar c d d') : d.Grows ↔ d'.Grows := by
  rw [Grows, h.length_eq hc, h.primeIndex, Grows]

/-- The same insertion keeps dictionaries similar, or goes wrong in both. -/
theorem Similar.insert (h : Similar c d d') (key value : UInt64) (mem : Memory) :
    Matched (Similar c) (d.insert key value mem) (d'.insert key value mem) := by
  rw [Dictionary.insert, Dictionary.insert]
  by_cases hgrows : d.Grows
  · rw [if_pos hgrows, if_pos ((h.grows_iff hc).mp hgrows)]
    split
    · exact h.grow.push key value mem.entry
    · split
      · exact rfl
      · exact h.push key value mem.entry
  · rw [if_neg hgrows, if_neg fun hgrows' => hgrows ((h.grows_iff hc).mpr hgrows')]
    exact h.push key value mem.entry

/-- **Calls.**  Similar dictionaries answer alike, and stay similar. -/
theorem Similar.exec (h : Similar c d d') (op : Op) :
    Matched (Similar c) (d.exec c op) (d'.exec c op) := by
  have hupdate : ∀ key f release, Matched (Similar c)
      (.ok (Prod.map id Answer.status (d.update c key f release)) : Except Fault _)
      (.ok (Prod.map id Answer.status (d'.update c key f release))) := fun key f release =>
    (h.update hc key f release).imp_right (congrArg Answer.status)
  have hremove : ∀ key condFunc, Matched (Similar c)
      (.ok (Prod.map id Answer.value (d.condRemove c key condFunc)) : Except Fault _)
      (.ok (Prod.map id Answer.value (d'.condRemove c key condFunc))) := fun key condFunc =>
    (h.condRemove hc key condFunc).imp_right (congrArg Answer.value)
  cases op with
  | count => exact ⟨h, congrArg (fun n => Answer.count (.ofNat n)) (h.length_eq hc)⟩
  | insert key value mem => exact (h.insert hc key value mem).map Answer.status
  | search key =>
    exact ⟨h, congrArg Answer.value (congrArg (Option.elim · 0 Prod.snd) (h.find?_eq key))⟩
  | change key value => exact hupdate ..
  | inc key value => exact hupdate ..
  | dec key value => exact hupdate ..
  | remove key => exact hremove ..
  | condRemove key condFunc => exact hremove ..

end Dictionary

/-- Keys that are hashed and compared as they are, and freed as the values are. -/
def ptrCallbacks : Callbacks := ⟨petHashPtr, petCmpPtr, true, true⟩

/-- `pet_cmp_ptr` is the equality of the keys. -/
theorem eqFn_ptrCallbacks : Dictionary.EqFn ptrCallbacks := by
  refine ⟨fun key => beq_self_eq_true key, fun h => ?_, fun h h' => ?_⟩
  · exact BEq.symm h
  · exact BEq.trans h h'

end SimpleHttp.PetHashtable
