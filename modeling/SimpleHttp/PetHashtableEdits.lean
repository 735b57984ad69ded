import SimpleHttp.PetHashtableTable

namespace SimpleHttp.PetHashtable

open Lib

/-!
# The functions that edit one bucket

`Holds c s d`: the table `s`, made with the functions `c`, holds the dictionary `d`, its bindings
in the order of the slots.

* `Represents.edit` — one bucket replaced.
* `petHtableSearch_spec`, `updateValue_spec`, `condRemove_spec` — the table does what the
  dictionary does; `insertEntry_spec` — so does the second half of an insertion, but for where
  the binding goes.
-/

/-- The dictionary behind the buckets. -/
def asDictionary (s : State) (b : Nat → Bucket) : Dictionary :=
  ⟨bindings b s.htable.size, s.htable.primeIndex.toNat, s.released⟩

/-- The table holds the bindings of `d`, in the order of its slots and chains. -/
def Holds (c : Callbacks) (s : State) (d : Dictionary) : Prop :=
  ∃ b, Represents s b ∧ s.htable.toCallbacks = c ∧ asDictionary s b = d

variable {s : State} {b : Nat → Bucket} {c : Callbacks} {d : Dictionary} {key : UInt64}

/-- **One bucket replaced**, and the slot that points to it. -/
theorem Represents.edit (hs : Represents s b) {i : Nat} {l : Bucket} {p : Ptr}
    (heap : Heap HashEntry) (count : UInt32) (released : List Release)
    (hchain : Chain heap p l)
    (hcells : ∀ a ∈ addrs (rows b s.htable.size), a ∉ addrs (b i) →
      heap.cells a = s.heap.cells a)
    (hplaced : ∀ x ∈ l, x.2.hash = doHash s.htable x.2.key ∧ s.htable.home x.2.key = i)
    (hnodup : (addrs (rows (Function.update b i l) s.htable.size)).Nodup)
    (howned : ∀ a, heap.Live a → a ∈ addrs (rows (Function.update b i l) s.htable.size))
    (hcount : count = .ofNat (rows (Function.update b i l) s.htable.size).length)
    (hi : i < s.htable.size) :
    Represents
      ⟨heap, { s.htable with table := s.htable.table.set i p, entryCount := count }, released⟩
      (Function.update b i l) where
  shape := ⟨List.length_set.trans hs.shape.length, hs.shape.prime, hs.shape.limit⟩
  row := by
    refine Row.set (fun j q hj hq => (hs.row j q hq).congr fun a ha => ?_) hchain
    have hjsize : j < s.htable.size := by
      rw [← hs.shape.length]
      exact (List.getElem?_eq_some_iff.mp hq).1
    obtain ⟨x, hx, rfl⟩ := List.mem_map.mp ha
    exact hcells _ (mem_addrs (mem_rows.mpr ⟨j, hjsize, hx⟩))
      (rows_apart hs.nodup hjsize hi hj ha)
  placed := by
    intro j hj x hx
    by_cases hji : j = i
    · subst hji
      rw [Function.update_self] at hx
      exact hplaced x hx
    · rw [Function.update_of_ne hji] at hx
      exact hs.placed j hj x hx
  nodup := hnodup
  owned := howned
  count := hcount

/-- To write what is there changes nothing. -/
theorem set_of_getElem? {α : Type} {l : List α} {i : Nat} {x : α} (h : l[i]? = some x) :
    l.set i x = l := by
  obtain ⟨hi, rfl⟩ := List.getElem?_eq_some_iff.mp h
  exact List.set_getElem_self hi

section FirstMatch

variable {pre l₁ l₂ post : Bucket} {a : Addr} {x : Item}

/-- All entries, cut at the match. -/
theorem FirstMatch.rows_eq (hm : FirstMatch s b key pre l₁ a x l₂ post) :
    rows b s.htable.size = pre ++ (l₁ ++ (a, x) :: l₂) ++ post := by
  rw [← hm.others, ← hm.bucket, Function.update_eq_self]

/-- The bindings, cut at the first one of the key. -/
theorem FirstMatch.bindings_eq (hm : FirstMatch s b key pre l₁ a x l₂ post) (l : Bucket) :
    bindings (Function.update b (s.htable.home key) (l₁ ++ l ++ l₂)) s.htable.size =
      (pre ++ l₁).map (fun y => y.2.binding) ++
        (l.map (fun y => y.2.binding) ++ (l₂ ++ post).map fun y => y.2.binding) := by
  rw [bindings, hm.others]
  simp only [List.map_append, List.append_assoc]

/-- No binding in front of the match is one of the key. -/
theorem FirstMatch.before_map (hm : FirstMatch s b key pre l₁ a x l₂ post) :
    ∀ y ∈ (pre ++ l₁).map (fun y => y.2.binding),
      bound s.htable.toCallbacks key y = false := by
  intro y hy
  obtain ⟨z, hz, rfl⟩ := List.mem_map.mp hy
  exact hm.before z hz

/-- All bindings, cut at the match. -/
theorem FirstMatch.bindings_self (hm : FirstMatch s b key pre l₁ a x l₂ post) :
    bindings b s.htable.size = (pre ++ l₁).map (fun y => y.2.binding) ++
      x.binding :: (l₂ ++ post).map fun y => y.2.binding := by
  have h := hm.bindings_eq [(a, x)]
  rw [List.append_assoc, List.singleton_append, ← hm.bucket, Function.update_eq_self] at h
  exact h

/-- The match is what the dictionary finds. -/
theorem FirstMatch.find?_eq (hm : FirstMatch s b key pre l₁ a x l₂ post) :
    (asDictionary s b).find? s.htable.toCallbacks key = some x.binding := by
  show (bindings b s.htable.size).find? _ = _
  rw [hm.bindings_self, find?_append_cons hm.before_map hm.here]

/-- The entries of the match's bucket are where they belong. -/
theorem FirstMatch.placed (hm : FirstMatch s b key pre l₁ a x l₂ post) (hs : Represents s b) :
    ∀ y ∈ l₁ ++ (a, x) :: l₂,
      y.2.hash = doHash s.htable y.2.key ∧ s.htable.home y.2.key = s.htable.home key := by
  rw [← hm.bucket]
  exact hs.placed _ (hs.shape.home_lt key)

/-- No cell of the match's bucket is there twice. -/
theorem FirstMatch.nodup (hm : FirstMatch s b key pre l₁ a x l₂ post) (hs : Represents s b) :
    (addrs (l₁ ++ (a, x) :: l₂)).Nodup := by
  rw [← hm.bucket]
  exact nodup_rows hs.nodup (hs.shape.home_lt key)

end FirstMatch

/-- Where there is no match, the dictionary finds nothing. -/
theorem find?_eq_none (hno : ∀ x ∈ rows b s.htable.size,
    bound s.htable.toCallbacks key x.2.binding = false) :
    (asDictionary s b).find? s.htable.toCallbacks key = none := by
  refine List.find?_eq_none.mpr fun y hy => Bool.eq_false_iff.mp ?_
  obtain ⟨x, hx, rfl⟩ := List.mem_map.mp hy
  exact hno x hx

/-! ### Search -/

/-- **Search.** -/
theorem petHtableSearch_spec (h : Holds c s d) (key : UInt64) :
    petHtableSearch s key = .ok (d.search c key) := by
  obtain ⟨b, hs, rfl, rfl⟩ := h
  rcases find_cases hs key with ⟨hno, hfind⟩ | ⟨pre, l₁, a, x, l₂, post, n, hm, -, hfind⟩
  · rw [petHtableSearch, hfind, Dictionary.search, find?_eq_none hno]
    rfl
  · rw [petHtableSearch, hfind, Dictionary.search, hm.find?_eq]
    rfl

/-! ### New values -/

/-- The cell of an entry, written again with another value. -/
theorem Represents.set_value (hs : Represents s b) {pre l₁ l₂ post : Bucket} {a : Addr} {x : Item}
    (hm : FirstMatch s b key pre l₁ a x l₂ post) {n : Ptr} (hc : s.heap.cells a = some ⟨x, n⟩)
    (value : UInt64) (released : List Release) :
    Represents { s with heap := s.heap.write a ⟨{ x with value }, n⟩, released }
      (Function.update b (s.htable.home key) (l₁ ++ (a, { x with value }) :: l₂)) := by
  have hi := hs.shape.home_lt key
  obtain ⟨p, -, hp, hchain⟩ := hs.chain hi
  rw [hm.bucket] at hchain
  -- no entry comes, goes or moves
  have haddrs : addrs (rows (Function.update b (s.htable.home key)
      (l₁ ++ (a, { x with value }) :: l₂)) s.htable.size) = addrs (rows b s.htable.size) := by
    rw [hm.others, hm.rows_eq]
    simp
  have hedit := hs.edit (s.heap.write a ⟨{ x with value }, n⟩) s.htable.entryCount released
    (hchain.set_item (hm.nodup hs) hc) ?_ ?_ (by rw [haddrs]; exact hs.nodup) ?_ ?_ hi
  · rw [set_of_getElem? hp] at hedit
    exact hedit
  · -- the other buckets do not hold the entry
    intro a' _ ha'
    refine Heap.cells_write_of_ne _ (fun heq => ha' ?_) _
    rw [hm.bucket, heq]
    simp
  · intro y hy
    rcases List.mem_append.mp hy with hy | hy
    · exact hm.placed hs y (List.mem_append_left _ hy)
    · rcases List.mem_cons.mp hy with rfl | hy
      · exact hm.placed hs (a, x) (List.mem_append_right _ List.mem_cons_self)
      · exact hm.placed hs y (List.mem_append_right _ (List.mem_cons_of_mem _ hy))
  · intro a' ha'
    rw [haddrs]
    exact hs.owned a' ((Heap.live_write ..).mp ha')
  · rw [hs.count, ← List.length_map Prod.fst, ← List.length_map Prod.fst]
    exact congrArg (fun l => UInt32.ofNat l.length) haddrs.symm

/-- `petHtableChange`, `petHtableInc` and `petHtableDec`. -/
theorem updateValue_spec (h : Holds c s d) (key : UInt64) (f : UInt64 → UInt64) (release : Bool) :
    ∃ s', updateValue s key f release = .ok (s', (d.update c key f release).2) ∧
      Holds c s' (d.update c key f release).1 := by
  obtain ⟨b, hs, rfl, rfl⟩ := h
  rcases find_cases hs key with ⟨hno, hfind⟩ | ⟨pre, l₁, a, x, l₂, post, n, hm, hc, hfind⟩
  · rw [updateValue, hfind, Dictionary.update, find?_eq_none hno]
    exact ⟨s, rfl, b, hs, rfl, rfl⟩
  · rw [updateValue, hfind, Dictionary.update, hm.find?_eq]
    refine ⟨_, rfl, _, hs.set_value hm hc (f x.value) _, rfl, ?_⟩
    have hnew := hm.bindings_eq [(a, { x with value := f x.value })]
    rw [List.append_assoc, List.singleton_append] at hnew
    have hfirst : bindings (Function.update b (s.htable.home key)
        (l₁ ++ (a, { x with value := f x.value }) :: l₂)) s.htable.size =
        modifyFirst (bound s.htable.toCallbacks key) (fun y => (y.1, f y.2))
          (bindings b s.htable.size) := by
      rw [hm.bindings_self, modifyFirst_append_cons hm.before_map hm.here, hnew]
      rfl
    rw [asDictionary, Dictionary.mk.injEq]
    exact ⟨hfirst, rfl, rfl⟩

/-! ### Removal -/

/-- One entry less, also where the count has wrapped. -/
theorem ofNat_succ_sub_one (n : Nat) : UInt32.ofNat (n + 1) - 1 = UInt32.ofNat n := by
  rw [UInt32.ofNat_add]
  exact UInt32.add_sub_cancel ..

/-- `*entry_ptr = cursor->next`, wherever `entry_ptr` points: to the slot or into the entry
    before. -/
theorem setLink_chain (hs : Represents s b) {i : Nat} (hi : i < s.htable.size) {l₁ l₂ : Bucket}
    {a : Addr} {x : Item} {n : Ptr} (hb : b i = l₁ ++ (a, x) :: l₂)
    (hc : s.heap.cells a = some ⟨x, n⟩) :
    ∃ heap p, setLink s i (parentOf l₁) n =
        .ok { s with heap, htable := { s.htable with table := s.htable.table.set i p } } ∧
      Chain heap p (l₁ ++ l₂) ∧ heap.cells a = some ⟨x, n⟩ ∧
      (∀ a', heap.Live a' ↔ s.heap.Live a') ∧
      ∀ a', a' ∉ addrs (b i) → heap.cells a' = s.heap.cells a' := by
  obtain ⟨p, -, hp, hchain⟩ := hs.chain hi
  have hnd := nodup_rows hs.nodup hi
  have hlen : i < s.htable.table.length := by rwa [hs.shape.length]
  rw [hb] at hchain hnd ⊢
  rcases List.eq_nil_or_concat l₁ with rfl | ⟨l₁, ⟨a', y⟩, rfl⟩
  · -- the head of the chain: the slot changes
    obtain ⟨-, n', hc', hrest⟩ := hchain
    rw [hc] at hc'
    cases hc'
    refine ⟨s.heap, n, ?_, hrest, hc, fun _ => Iff.rfl, fun _ _ => rfl⟩
    show (do return { s with
      htable := { s.htable with table := ← setSlot s.htable.table i n } } : Except Fault State) = _
    rw [setSlot_eq hlen]
    rfl
  · -- the entry before changes
    rw [List.concat_eq_append, List.append_assoc, List.singleton_append] at hchain hnd ⊢
    rw [List.append_assoc, List.singleton_append]
    obtain ⟨m, hm⟩ : ∃ m, s.heap.cells a' = some ⟨y, m⟩ :=
      hchain.cell (x := (a', y)) (List.mem_append_right _ List.mem_cons_self)
    -- the write does not reach the entry that is taken out
    have hne : a ≠ a' := by
      rw [addrs_append, List.nodup_append] at hnd
      rintro rfl
      exact (List.nodup_cons.mp hnd.2.1).1 List.mem_cons_self
    have hparent : parentOf (l₁ ++ [(a', y)]) = some a' := by simp [parentOf]
    refine ⟨s.heap.write a' ⟨y, n⟩, p, ?_, hchain.unlink hnd hc, ?_, fun a => s.heap.live_write ..,
      fun a ha => ?_⟩
    · rw [hparent, set_of_getElem? hp]
      show deref s.heap (some a') >>= _ = _
      rw [deref_eq hm]
      rfl
    · rw [Heap.cells_write_of_ne _ hne, hc]
    · refine Heap.cells_write_of_ne _ ?_ _
      rintro rfl
      exact ha (by simp)

/-- The release of a key as one update of the state. -/
theorem releaseKey_eq (s : State) (key : UInt64) :
    releaseKey s key = { s with
      released := if s.htable.keyFreeFn then s.released ++ [.key key] else s.released } := by
  rw [releaseKey]
  split <;> rfl

/-- What a removal leaves behind, once the entry is freed. -/
theorem Represents.unlink (hs : Represents s b) {i : Nat} (hi : i < s.htable.size)
    {l₁ l₂ : Bucket} {a : Addr} {x : Item} (hb : b i = l₁ ++ (a, x) :: l₂) {heap : Heap HashEntry}
    {p : Ptr} (hchain : Chain heap p (l₁ ++ l₂)) (hlive : ∀ a', heap.Live a' ↔ s.heap.Live a')
    (hcells : ∀ a', a' ∉ addrs (b i) → heap.cells a' = s.heap.cells a')
    (released : List Release) :
    Represents
      ⟨heap.free a, { s.htable with
        table := s.htable.table.set i p, entryCount := s.htable.entryCount - 1 }, released⟩
      (Function.update b i (l₁ ++ l₂)) := by
  obtain ⟨pre, post, hrows, hupdate⟩ := rows_update b hi
  have hnd := hs.nodup
  rw [hrows, hb] at hnd
  -- of all the entries, exactly one goes
  have hperm : (pre ++ (l₁ ++ (a, x) :: l₂) ++ post).Perm ((a, x) :: (pre ++ (l₁ ++ l₂) ++ post)) := by
    simp only [List.append_assoc]
    exact (List.Perm.append_left pre List.perm_middle).trans List.perm_middle
  have hsplit : a ∉ addrs (pre ++ (l₁ ++ l₂) ++ post) ∧
      (addrs (pre ++ (l₁ ++ l₂) ++ post)).Nodup :=
    List.nodup_cons.mp ((hperm.map Prod.fst).nodup_iff.mp hnd)
  have hout : a ∉ addrs (l₁ ++ l₂) := by
    intro ha
    refine hsplit.1 ?_
    rw [addrs_append, addrs_append]
    exact List.mem_append_left _ (List.mem_append_right _ ha)
  refine hs.edit (heap.free a) _ released (hchain.free hout) ?_ ?_ ?_ ?_ ?_ hi
  · intro a' _ ha'
    rw [Heap.cells_free_of_ne, hcells a' ha']
    rintro rfl
    exact ha' (by rw [hb]; simp)
  · intro y hy
    refine hs.placed i hi y ?_
    rw [hb]
    rcases List.mem_append.mp hy with hy | hy
    · exact List.mem_append_left _ hy
    · exact List.mem_append_right _ (List.mem_cons_of_mem _ hy)
  · rw [hupdate]
    exact hsplit.2
  · intro a' ha'
    -- an object that is still allocated was so before, and is another one
    have hne : a' ≠ a := by
      rintro rfl
      rw [Heap.Live, Heap.cells_free_self] at ha'
      cases ha'
    rw [Heap.Live, Heap.cells_free_of_ne _ hne] at ha'
    have hin := hs.owned a' ((hlive a').mp ha')
    rw [hrows, hb] at hin
    rw [hupdate]
    exact (List.mem_cons.mp ((hperm.map Prod.fst).mem_iff.mp hin)).resolve_left hne
  · rw [hs.count, hrows, hb, hperm.length_eq, hupdate, List.length_cons, ofNat_succ_sub_one]

/-- **Removal.** -/
theorem condRemove_spec (h : Holds c s d) (key : UInt64) (condFunc : Option (UInt64 → Bool)) :
    ∃ s', petHtableCondRemove s key condFunc = .ok (s', (d.condRemove c key condFunc).2) ∧
      Holds c s' (d.condRemove c key condFunc).1 := by
  obtain ⟨b, hs, rfl, rfl⟩ := h
  rcases find_cases hs key with ⟨hno, hfind⟩ | ⟨pre, l₁, a, x, l₂, post, n, hm, hc, hfind⟩
  · rw [petHtableCondRemove, hfind, Dictionary.condRemove, find?_eq_none hno]
    exact ⟨s, rfl, b, hs, rfl, rfl⟩
  rw [petHtableCondRemove, hfind, Dictionary.condRemove, hm.find?_eq]
  simp only [ok_bind, releaseKey_eq]
  by_cases hcond : (condFunc.any fun cond => !cond x.value) = true
  · rw [if_pos hcond, if_pos (show (condFunc.any fun cond => !cond x.binding.2) = true from hcond)]
    exact ⟨s, rfl, b, hs, rfl, rfl⟩
  rw [if_neg hcond, if_neg (show ¬(condFunc.any fun cond => !cond x.binding.2) = true from hcond)]
  have hi := hs.shape.home_lt key
  obtain ⟨heap, p, hlink, hchain, -, hlive, hcells⟩ := setLink_chain hs hi hm.bucket hc
  rw [hlink]
  refine ⟨_, rfl, _, hs.unlink hi hm.bucket hchain hlive hcells _, rfl, ?_⟩
  have hgone : bindings (Function.update b (s.htable.home key) (l₁ ++ l₂)) s.htable.size =
      (bindings b s.htable.size).eraseP (bound s.htable.toCallbacks key) := by
    have hnew := hm.bindings_eq []
    rw [List.append_nil] at hnew
    rw [hm.bindings_self, eraseP_append_cons hm.before_map hm.here, hnew]
    rfl
  rw [asDictionary, Dictionary.mk.injEq]
  exact ⟨hgone, rfl, rfl⟩

/-! ### A new entry -/

/-- The end of `pet_htable_insert`: the entry becomes the head of its bucket. -/
theorem prepend_spec (hs : Represents s b) (key value : UInt64) :
    ∃ next, slot s.htable.table (s.htable.home key) = .ok next ∧
      setSlot s.htable.table (s.htable.home key) (some s.heap.next) =
        .ok (s.htable.table.set (s.htable.home key) (some s.heap.next)) ∧
      ∃ b', Represents
          ⟨s.heap.alloc ⟨⟨key, value, doHash s.htable key⟩, next⟩, { s.htable with
            table := s.htable.table.set (s.htable.home key) (some s.heap.next)
            entryCount := s.htable.entryCount + 1 }, s.released⟩ b' ∧
        ClassEq (same s.htable.toCallbacks) Prod.fst (bindings b' s.htable.size)
          ((key, value) :: bindings b s.htable.size) := by
  have hi := hs.shape.home_lt key
  obtain ⟨next, hslot, -, hchain⟩ := hs.chain hi
  obtain ⟨pre, post, hupdate, hrows, hout⟩ := hs.cut hi
  -- the address that `calloc` returns is in no chain
  have hfresh : s.heap.next ∉ addrs (rows b s.htable.size) := by
    intro hin
    obtain ⟨x, hx, heq⟩ := List.mem_map.mp hin
    obtain ⟨j, hj, hxj⟩ := mem_rows.mp hx
    obtain ⟨p, -, -, hchain⟩ := hs.chain hj
    obtain ⟨n, hn⟩ := hchain.cell hxj
    rw [heq] at hn
    exact Nat.lt_irrefl _ (Heap.lt_next hn)
  have hperm : (pre ++ ((s.heap.next, ⟨key, value, doHash s.htable key⟩) ::
      b (s.htable.home key)) ++ post).Perm
      ((s.heap.next, ⟨key, value, doHash s.htable key⟩) :: rows b s.htable.size) := by
    rw [hrows, List.append_assoc, List.append_assoc]
    exact List.perm_middle
  refine ⟨next, hslot, setSlot_eq (by rwa [hs.shape.length]) _, _, hs.edit _ _ _
    (l := (s.heap.next, ⟨key, value, doHash s.htable key⟩) :: b (s.htable.home key))
    ⟨rfl, next, s.heap.cells_alloc_self _, hchain.alloc _⟩ ?_ ?_ ?_ ?_ ?_ hi, ?_⟩
  · intro a ha _
    exact Heap.cells_alloc_of_ne _ (ne_of_mem_of_not_mem ha hfresh) _
  · intro x hx
    rcases List.mem_cons.mp hx with rfl | hx
    · exact ⟨rfl, rfl⟩
    · exact hs.placed _ hi x hx
  · rw [hupdate]
    exact (hperm.map Prod.fst).nodup_iff.mpr (List.nodup_cons.mpr ⟨hfresh, hs.nodup⟩)
  · intro a ha
    rw [hupdate]
    refine (hperm.map Prod.fst).mem_iff.mpr ?_
    by_cases hne : a = s.heap.next
    · exact hne ▸ List.mem_cons_self
    · rw [Heap.Live, Heap.cells_alloc_of_ne _ hne] at ha
      exact List.mem_cons_of_mem _ (hs.owned a ha)
  · rw [hs.count, hupdate, hperm.length_eq, List.length_cons, UInt32.ofNat_add]
    rfl
  · rw [bindings, hupdate, bindings, hrows]
    simp only [List.map_append, List.map_cons, List.append_assoc, List.cons_append]
    -- the buckets before it hold no binding of the same key, so it may be counted as the first
    refine ClassEq.middle fun k hk y hy => Bool.eq_false_iff.mpr fun hky => ?_
    obtain ⟨z, hz, rfl⟩ := List.mem_map.mp hy
    have hhome : s.htable.home k = s.htable.home key := home_eq_of_bound (x := (key, value)) hk
    exact hout z (.inl hz) ((home_eq_of_bound (x := z.2.binding) hky).symm.trans hhome)

end SimpleHttp.PetHashtable
