import SimpleHttp.Lib.Runs
import SimpleHttp.PetListLoops

namespace SimpleHttp.PetList

open Lib

/-!
# Programs over `pet_list.h`

* `Lists` — what a program takes its memory for: some heads, and the entries behind each of them.
* `Lists.Step` — what each operation does to the lists, and what its caller has to see to.
* `Represents` — every list is a ring, and the rings are apart.
* `runOps_refines` — as long as the callers keep to the contract, the pointers do what the lists
  say.
-/

/-- The entries behind each head. -/
abbrev Lists := Addr → Option (List Addr)

namespace Lists

/-- `x` is in no list, and at most the head of an empty one. -/
def Unused (s : Lists) (x : Addr) : Prop :=
  (∀ head l, s head = some l → x ∉ l) ∧ (s x = none ∨ s x = some [])

/-- The list of a head, replaced. -/
def set (s : Lists) (head : Addr) (l : List Addr) : Lists := Function.update s head (some l)

/-- `head` is no head any more. -/
def drop (s : Lists) (head : Addr) : Lists := Function.update s head none

/-- `x` taken out of whatever list it is in. -/
def unlink (s : Lists) (x : Addr) : Lists := fun head => (s head).map fun l => l.erase x

end Lists

/-! ### Operations -/

/-- The operations of a program, with the addresses they are called on. -/
inductive Op where
  | init (x : Addr)
  | headInit (x : Addr)
  | add (x head : Addr)
  | addTail (x head : Addr)
  | del (x : Addr)
  | delInit (x : Addr)
  | move (x head : Addr)
  | moveTail (x head : Addr)
  | splice (list head : Addr)
  | spliceInit (list head : Addr)
  | empty (head : Addr)
  | emptyCareful (head : Addr)
  | firstEntry (head : Addr)
  | visit (head : Addr)   -- `list_for_each`, noting what is seen
  | visitBack (head : Addr)   -- `list_for_each_prev`
  | sweep (head : Addr) (p : Pointer → Bool)   -- `list_for_each_safe`, deleting what `p` chooses

/-- What an operation returns, or has shown its body. -/
inductive Result where
  | done
  | flag (b : Bool)
  | seen (entries : List Pointer)
  deriving DecidableEq, Repr

/-- A body that notes where it is called. -/
def note : Body (List Pointer) := tally fun seen pos => seen ++ [pos]

/-- One operation on the memory. -/
def Op.exec (m : Memory) : Op → Except Fault (Memory × Result)
  | .init x => do pure (← initListHead m (.to x), .done)
  | .headInit x => do pure (← listHeadInit m (.to x), .done)
  | .add x head => do pure (← listAdd m (.to x) (.to head), .done)
  | .addTail x head => do pure (← listAddTail m (.to x) (.to head), .done)
  | .del x => do pure (← listDel m (.to x), .done)
  | .delInit x => do pure (← listDelInit m (.to x), .done)
  | .move x head => do pure (← listMove m (.to x) (.to head), .done)
  | .moveTail x head => do pure (← listMoveTail m (.to x) (.to head), .done)
  | .splice list head => do pure (← listSplice m (.to list) (.to head), .done)
  | .spliceInit list head => do pure (← listSpliceInit m (.to list) (.to head), .done)
  | .empty head => do pure (m, .flag (← listEmpty m (.to head)))
  | .emptyCareful head => do pure (m, .flag (← listEmptyCareful m (.to head)))
  | .firstEntry head => do pure (m, .seen [← listFirstEntry m (.to head)])
  | .visit head => do
      let (m, seen, _) ← listForEach (m.next + 1) m [] (.to head) note
      pure (m, .seen seen)
  | .visitBack head => do
      let (m, seen, _) ← listForEachPrev (m.next + 1) m [] (.to head) note
      pure (m, .seen seen)
  | .sweep head p => do
      let (m, _, _) ← listForEachSafe (m.next + 1) m () (.to head) (delIf p)
      pure (m, .done)

/-- A program: its memory, and the results of its operations so far. -/
def execOp (s : Memory × List Result) (op : Op) : Except Fault (Memory × List Result) := do
  let (m, r) ← op.exec s.1
  pure (m, s.2 ++ [r])

/-- The objects that an operation puts to a first use. -/
def Op.enters : Op → List Addr
  | .init x => [x]
  | .headInit x => [x]
  | .add x _ => [x]
  | .addTail x _ => [x]
  | _ => []

/-! ### What the operations are for -/

/-- An operation on lists whose caller keeps to the contract, and its result. -/
inductive Lists.Step (s : Lists) : Op → Result → Lists → Prop where
  | init {x} (hx : s.Unused x) : Step s (.init x) .done (s.set x [])
  | headInit {x} (hx : s.Unused x) : Step s (.headInit x) .done (s.set x [])
  | add {x head l} (hx : s.Unused x) (hne : x ≠ head) (hl : s head = some l) :
      Step s (.add x head) .done ((s.drop x).set head (x :: l))
  | addTail {x head l} (hx : s.Unused x) (hne : x ≠ head) (hl : s head = some l) :
      Step s (.addTail x head) .done ((s.drop x).set head (l ++ [x]))
  | del {x head l} (hl : s head = some l) (hx : x ∈ l) : Step s (.del x) .done (s.unlink x)
  | delInit {x head l} (hl : s head = some l) (hx : x ∈ l) :
      Step s (.delInit x) .done ((s.unlink x).set x [])
  | move {x old l head l'} (hl : s old = some l) (hx : x ∈ l) (hl' : s head = some l') :
      Step s (.move x head) .done ((s.unlink x).set head (x :: l'.erase x))
  | moveTail {x old l head l'} (hl : s old = some l) (hx : x ∈ l) (hl' : s head = some l') :
      Step s (.moveTail x head) .done ((s.unlink x).set head (l'.erase x ++ [x]))
  | splice {list head xs l} (hne : list ≠ head) (hxs : s list = some xs) (hl : s head = some l) :
      -- behind a list that is not empty, `list` is left without being initialised
      Step s (.splice list head) .done
        (if xs = [] then s else (s.drop list).set head (xs ++ l))
  | spliceInit {list head xs l} (hne : list ≠ head) (hxs : s list = some xs)
      (hl : s head = some l) :
      Step s (.spliceInit list head) .done ((s.set head (xs ++ l)).set list [])
  | empty {head l} (hl : s head = some l) : Step s (.empty head) (.flag (decide (l = []))) s
  | emptyCareful {head l} (hl : s head = some l) :
      Step s (.emptyCareful head) (.flag (decide (l = []))) s
  | firstEntry {head x l} (hl : s head = some (x :: l)) :
      -- an empty list has no first entry to ask for
      Step s (.firstEntry head) (.seen [.to x]) s
  | visit {head l} (hl : s head = some l) : Step s (.visit head) (.seen (l.map .to)) s
  | visitBack {head l} (hl : s head = some l) :
      Step s (.visitBack head) (.seen (l.reverse.map .to)) s
  | sweep {head l p} (hl : s head = some l) : Step s (.sweep head p) .done (s.set head (kept p l))

/-- A whole program on lists, with its results. -/
inductive Lists.Run : Lists → List Op → List Result → Lists → Prop where
  | nil {s} : Run s [] [] s
  | cons {s m t op ops r rs} (hstep : s.Step op r m) (hrun : Run m ops rs t) :
      Run s (op :: ops) (r :: rs) t

/-! ### The representation -/

/-- The memory holds these lists, and no object is in two of them. -/
structure Represents (m : Memory) (s : Lists) : Prop where
  ring : ∀ head l, s head = some l → (links m).Ring ↑(head :: l)
  nodup : ∀ head l, s head = some l → (head :: l).Nodup
  apart : ∀ head l head' l' x, s head = some l → s head' = some l' → x ∈ head :: l →
    x ∈ head' :: l' → head = head'

/-- Any memory holds no lists at all. -/
theorem represents_none (m : Memory) : Represents m fun _ => none :=
  ⟨fun _ _ h => (Option.some_ne_none _ h.symm).elim,
    fun _ _ h => (Option.some_ne_none _ h.symm).elim,
    fun _ _ _ _ _ h => (Option.some_ne_none _ h.symm).elim⟩

variable {m m' : Memory} {s t : Lists}

/-- An entry is in one list only, and no head. -/
theorem Represents.unused_unlink (hs : Represents m s) {x head : Addr} {l : List Addr}
    (hl : s head = some l) (hx : x ∈ l) : (s.unlink x).Unused x ∧ s x = none := by
  have hnone : s x = none := by
    by_contra hne
    obtain ⟨l', hl'⟩ := Option.ne_none_iff_exists'.mp hne
    have heq := hs.apart head l x l' x hl hl' (List.mem_cons_of_mem _ hx) List.mem_cons_self
    exact (List.nodup_cons.mp (hs.nodup head l hl)).1 (heq ▸ hx)
  refine ⟨⟨fun h l' hl' => ?_, Or.inl (by rw [Lists.unlink, hnone]; rfl)⟩, hnone⟩
  obtain ⟨l₀, hl₀, rfl⟩ := Option.map_eq_some_iff.mp hl'
  exact (List.nodup_cons.mp (hs.nodup h l₀ hl₀)).2.not_mem_erase

/-- An edit of one list.  What is written belongs to no other. -/
theorem Represents.set (hs : Represents m s) {touched l : List Addr} {head : Addr}
    (he : Edited m m' touched) (hring : (links m').Ring ↑(head :: l)) (hnd : (head :: l).Nodup)
    (hsub : head :: l ⊆ touched) (hl : t head = some l)
    (hother : ∀ head' l', head' ≠ head → t head' = some l' →
      s head' = some l' ∧ ∀ a ∈ touched, a ∉ head' :: l') :
    Represents m' t := by
  refine ⟨fun h l' hl' => ?_, fun h l' hl' => ?_, fun h l' h' l'' x hl' hl'' hx hx' => ?_⟩
  · by_cases hh : h = head
    · obtain rfl := hh
      obtain rfl := Option.some.inj (hl.symm.trans hl')
      exact hring
    · obtain ⟨hold, hout⟩ := hother h l' hh hl'
      exact he.ring (hs.ring h l' hold) hout
  · by_cases hh : h = head
    · obtain rfl := hh
      obtain rfl := Option.some.inj (hl.symm.trans hl')
      exact hnd
    · exact hs.nodup h l' (hother h l' hh hl').1
  · by_cases hh : h = head <;> by_cases hh' : h' = head
    · rw [hh, hh']
    · obtain rfl := hh
      obtain rfl := Option.some.inj (hl.symm.trans hl')
      exact absurd hx' ((hother h' l'' hh' hl'').2 x (hsub hx))
    · obtain rfl := hh'
      obtain rfl := Option.some.inj (hl.symm.trans hl'')
      exact absurd hx ((hother h l' hh hl').2 x (hsub hx'))
    · exact hs.apart h l' h' l'' x (hother h l' hh hl').1 (hother h' l'' hh' hl'').1 hx hx'

/-- The members of a list are in no other list. -/
theorem Represents.outside (hs : Represents m s) {head head' : Addr} {l l' : List Addr}
    (hl : s head = some l) (hl' : s head' = some l') (hne : head' ≠ head) :
    ∀ a ∈ head :: l, a ∉ head' :: l' :=
  fun a ha ha' => hne (hs.apart head l head' l' a hl hl' ha ha').symm

/-- A list with an unused object put into it. -/
theorem Represents.nodup_enter (hs : Represents m s) {x head : Addr} {l : List Addr}
    (hx : s.Unused x) (hne : x ≠ head) (hl : s head = some l) : (head :: x :: l).Nodup := by
  have h := hs.nodup head l hl
  rw [List.nodup_cons] at h ⊢
  exact ⟨by simp [hne.symm, h.1], List.nodup_cons.mpr ⟨hx.1 head l hl, h.2⟩⟩

/-- `x` becomes the head of an empty list. -/
theorem Represents.init (hs : Represents m s) {x : Addr} (hx : s.Unused x) (he : Edited m m' [x])
    (hring : (links m').Ring ↑[x]) : Represents m' (s.set x []) := by
  refine hs.set he hring (List.nodup_singleton x) (List.Subset.refl _) (Function.update_self ..)
    fun h l hh hl => ?_
  have hold : s h = some l := by simpa [Lists.set, hh] using hl
  refine ⟨hold, fun a ha => ?_⟩
  obtain rfl := List.mem_singleton.mp ha
  exact fun hin => (List.mem_cons.mp hin).elim (fun heq => hh heq.symm) (hx.1 h l hold)

/-- `x` goes into a list, at whatever place. -/
theorem Represents.enter (hs : Represents m s) {x head : Addr} {l l' : List Addr}
    (hx : s.Unused x) (hne : x ≠ head) (hl : s head = some l)
    (he : Edited m m' (head :: x :: l)) (hring : (links m').Ring ↑(head :: l'))
    (hperm : l'.Perm (x :: l)) : Represents m' ((s.drop x).set head l') := by
  have hnd := hs.nodup_enter hx hne hl
  refine hs.set he hring ((hperm.cons head).nodup_iff.mpr hnd) (hperm.cons head).subset
    (Function.update_self ..) fun h l'' hh hl'' => ?_
  have hxh : h ≠ x := by
    rintro rfl
    simp [Lists.set, Lists.drop, hh] at hl''
  have hold : s h = some l'' := by
    simpa [Lists.set, Lists.drop, hh, hxh] using hl''
  refine ⟨hold, fun a ha => ?_⟩
  have hout := hs.outside hl hold hh
  simp only [List.mem_cons] at ha
  rcases ha with rfl | rfl | ha
  · exact hout _ List.mem_cons_self
  · exact fun hin => (List.mem_cons.mp hin).elim (fun heq => hxh heq.symm) (hx.1 h l'' hold)
  · exact hout _ (List.mem_cons_of_mem _ ha)

/-- The common part of deletions and moves. -/
theorem Represents.unlink (hs : Represents m s) {x head : Addr} {l : List Addr}
    (hl : s head = some l) (hx : x ∈ l) (he : Edited m m' (head :: l))
    (hring : (links m').Ring ↑(head :: l.erase x)) : Represents m' (s.unlink x) := by
  have hnd := hs.nodup head l hl
  have hsub : (head :: l.erase x).Sublist (head :: l) := (List.erase_sublist).cons_cons head
  refine hs.set he hring (hnd.sublist hsub) hsub.subset (by rw [Lists.unlink, hl]; rfl)
    fun h l' hh hl' => ?_
  obtain ⟨l₀, hl₀, rfl⟩ := Option.map_eq_some_iff.mp hl'
  have hout := hs.outside hl hl₀ hh
  have hxl : x ∉ l₀ := fun hin => hout x (List.mem_cons_of_mem _ hx) (List.mem_cons_of_mem _ hin)
  rw [List.erase_of_not_mem hxl]
  exact ⟨hl₀, hout⟩

/-- The ring of a list, turned until the entry `x` is in front. -/
theorem Represents.turned (hs : Represents m s) {x head : Addr} {l : List Addr}
    (hl : s head = some l) (hx : x ∈ l) :
    ∃ l', l' ≠ [] ∧ (links m).Ring ↑(x :: l') ∧ (x :: l').Perm (head :: l) ∧
      ∀ k : Links Addr, k.Ring ↑l' → k.Ring ↑(head :: l.erase x) := by
  obtain ⟨pre, post, rfl⟩ := List.append_of_mem hx
  have hring := hs.ring head _ hl
  have hnd := hs.nodup head _ hl
  have hpre : x ∉ pre := by
    have h := (List.nodup_append.mp (List.nodup_cons.mp hnd).2).2.2
    exact fun hin => h x hin x List.mem_cons_self rfl
  refine ⟨post ++ head :: pre, by simp, ?_, ?_, fun k hk => ?_⟩
  · rw [← List.cons_append, Links.ring_append_comm] at hring
    simpa using hring
  · have hperm : (head :: pre ++ x :: post).Perm (x :: post ++ head :: pre) :=
      List.perm_append_comm
    simpa using hperm.symm
  · rw [List.erase_append_right _ hpre, List.erase_cons_head]
    rw [Links.ring_append_comm] at hk
    simpa using hk

theorem unlink_apply {head : Addr} {l : List Addr} (hl : s head = some l) (x : Addr) :
    s.unlink x head = some (l.erase x) := by
  rw [Lists.unlink, hl, Option.map_some]

theorem drop_of_none {x : Addr} (h : s x = none) : s.drop x = s := by
  rw [Lists.drop, ← h, Function.update_eq_self]

/-- What `list_move` and `list_move_tail` find behind the unlinking. -/
theorem Represents.unlinked (hs : Represents m s) {x head : Addr} {l : List Addr}
    (hl : s head = some l) (hx : x ∈ l) :
    ∃ p n m', prevOf m (.to x) = .ok p ∧ nextOf m (.to x) = .ok n ∧
      Internal.listDel m p n = .ok m' ∧ Represents m' (s.unlink x) ∧
      (∀ a, m'.Live a ↔ m.Live a) ∧ m'.Live x := by
  obtain ⟨l', hne, hring, hperm, hback⟩ := hs.turned hl hx
  have hnd := hperm.nodup_iff.mpr (hs.nodup head l hl)
  obtain ⟨p, n, m', hp, hn, hdel, hring', he⟩ := unlink_ring hring hne hnd
  exact ⟨p, n, m', hp, hn, hdel, hs.unlink hl hx (he.mono hperm.subset) (hback _ hring'),
    he.live_iff, (he.live_iff x).mpr (live_of_ring hring List.mem_cons_self)⟩

/-- The entries of a list are fewer than the objects of the heap. -/
theorem Represents.length_lt (hs : Represents m s) {head : Addr} {l : List Addr}
    (hl : s head = some l) : l.length < m.next + 1 := by
  have hnd := (List.nodup_cons.mp (hs.nodup head l hl)).2
  have hsub : l ⊆ List.range m.next := by
    intro a ha
    obtain ⟨c, hc⟩ :=
      Heap.live_iff.mp (live_of_ring (hs.ring head l hl) (List.mem_cons_of_mem _ ha))
    exact List.mem_range.mpr (Heap.lt_next hc)
  have hle := (List.subperm_of_subset hnd hsub).length_le
  rw [List.length_range] at hle
  exact Nat.lt_succ_of_le hle

/-- Two lists, one behind the other. -/
theorem Represents.nodup_splice (hs : Represents m s) {list head : Addr} {xs l : List Addr}
    (hne : list ≠ head) (hxs : s list = some xs) (hl : s head = some l) :
    (head :: l ++ list :: xs).Nodup :=
  List.nodup_append.mpr ⟨hs.nodup head l hl, hs.nodup list xs hxs,
    fun a ha _ hb heq => hs.outside hl hxs hne a ha (heq ▸ hb)⟩

/-- The entries of `list` go into the list of `head`. -/
theorem Represents.splice (hs : Represents m s) {list head : Addr} {xs l : List Addr}
    (hne : list ≠ head) (hxs : s list = some xs) (hl : s head = some l)
    (he : Edited m m' (head :: l ++ list :: xs)) (hring : (links m').Ring ↑(head :: (xs ++ l))) :
    Represents m' ((s.drop list).set head (xs ++ l)) := by
  have hnd := hs.nodup_splice hne hxs hl
  have hsub : head :: (xs ++ l) ⊆ head :: l ++ list :: xs := by
    intro a ha
    simp only [List.mem_cons, List.mem_append] at ha ⊢
    tauto
  have hnd' : (head :: (xs ++ l)).Nodup := by
    have hsplit := List.nodup_append.mp hnd
    rw [List.nodup_cons, List.nodup_append]
    refine ⟨fun hin => ?_, (List.nodup_cons.mp hsplit.2.1).2, (List.nodup_cons.mp hsplit.1).2,
      fun a ha b hb heq => hsplit.2.2 b (List.mem_cons_of_mem _ hb) a
        (List.mem_cons_of_mem _ ha) heq.symm⟩
    rcases List.mem_append.mp hin with hin | hin
    · exact hsplit.2.2 head List.mem_cons_self head (List.mem_cons_of_mem _ hin) rfl
    · exact (List.nodup_cons.mp hsplit.1).1 hin
  refine hs.set he hring hnd' hsub (Function.update_self ..) fun h l'' hh hl'' => ?_
  have hlist : h ≠ list := by
    rintro rfl
    simp [Lists.set, Lists.drop, hh] at hl''
  have hold : s h = some l'' := by simpa [Lists.set, Lists.drop, hh, hlist] using hl''
  refine ⟨hold, fun a ha => ?_⟩
  rcases List.mem_append.mp ha with ha | ha
  · exact hs.outside hl hold hh a ha
  · exact hs.outside hxs hold hlist a ha

/-- The head that has lost its entries is in no list. -/
theorem Represents.unused_splice (hs : Represents m s) {list head : Addr} {xs l : List Addr}
    (hne : list ≠ head) (hxs : s list = some xs) (hl : s head = some l) :
    ((s.drop list).set head (xs ++ l)).Unused list := by
  refine ⟨fun h l'' hl'' hin => ?_, Or.inl ?_⟩
  · by_cases hh : h = head
    · obtain rfl := hh
      obtain rfl : xs ++ l = l'' := by simpa [Lists.set] using hl''
      rcases List.mem_append.mp hin with hin | hin
      · exact (List.nodup_cons.mp (hs.nodup list xs hxs)).1 hin
      · exact hs.outside hxs hl hne.symm list List.mem_cons_self (List.mem_cons_of_mem _ hin)
    · have hlist : h ≠ list := by
        rintro rfl
        simp [Lists.set, Lists.drop, hh] at hl''
      have hold : s h = some l'' := by simpa [Lists.set, Lists.drop, hh, hlist] using hl''
      exact hs.outside hxs hold hlist list List.mem_cons_self (List.mem_cons_of_mem _ hin)
  · simp [Lists.set, Lists.drop, hne]

/-- What a noting body has seen. -/
theorem tallied_note (seen : List Pointer) (l : List Addr) :
    tallied (fun seen pos => seen ++ [pos]) seen l = seen ++ l.map .to := by
  induction l generalizing seen with
  | nil => simp [tallied]
  | cons x l ih =>
    have hcons := ih (seen ++ [.to x])
    simpa [tallied] using hcons

/-! ### The operations refine the lists -/

/-- **Adding**, at either end. -/
theorem exec_enter (hs : Represents m s) {x head : Addr} {l : List Addr} (hx : s.Unused x)
    (hne : x ≠ head) (hl : s head = some l) (hlive : m.Live x) :
    (∃ m', listAdd m (.to x) (.to head) = .ok m' ∧
        Represents m' ((s.drop x).set head (x :: l)) ∧ ∀ a, m'.Live a ↔ m.Live a) ∧
      ∃ m', listAddTail m (.to x) (.to head) = .ok m' ∧
        Represents m' ((s.drop x).set head (l ++ [x])) ∧ ∀ a, m'.Live a ↔ m.Live a := by
  have hnd := hs.nodup_enter hx hne hl
  constructor
  · obtain ⟨m', hrun, hring, he⟩ := listAdd_ring hlive (hs.ring head l hl) hnd
    exact ⟨m', hrun, hs.enter hx hne hl he hring (List.Perm.refl _), he.live_iff⟩
  · obtain ⟨m', hrun, hring, he⟩ := listAddTail_ring hlive (hs.ring head l hl) hnd
    exact ⟨m', hrun, hs.enter hx hne hl he hring (List.perm_append_singleton x l), he.live_iff⟩

/-- **Moving**, to either end. -/
theorem exec_move (hs : Represents m s) {x old head : Addr} {l l' : List Addr}
    (hl : s old = some l) (hx : x ∈ l) (hl' : s head = some l') :
    (∃ m', listMove m (.to x) (.to head) = .ok m' ∧
        Represents m' ((s.unlink x).set head (x :: l'.erase x)) ∧ ∀ a, m'.Live a ↔ m.Live a) ∧
      ∃ m', listMoveTail m (.to x) (.to head) = .ok m' ∧
        Represents m' ((s.unlink x).set head (l'.erase x ++ [x])) ∧ ∀ a, m'.Live a ↔ m.Live a := by
  obtain ⟨hunused, hnone⟩ := hs.unused_unlink hl hx
  obtain ⟨p, n, m₁, hp, hn, hdel, hs₁, hlive₁, hlx⟩ := hs.unlinked hl hx
  have hne : x ≠ head := by
    rintro rfl
    rw [hnone] at hl'
    cases hl'
  -- `x` is no head, so nothing is dropped with it
  have hdrop : (s.unlink x).drop x = s.unlink x :=
    drop_of_none (by rw [Lists.unlink, hnone]; rfl)
  have henter := exec_enter hs₁ hunused hne (unlink_apply hl' x) hlx
  rw [hdrop] at henter
  obtain ⟨⟨m', hadd, hs', hlive'⟩, m'', hadd', hs'', hlive''⟩ := henter
  constructor
  · refine ⟨m', ?_, hs', fun a => (hlive' a).trans (hlive₁ a)⟩
    simp only [listMove, hp, hn, hdel, hadd, ok_bind]
  · refine ⟨m'', ?_, hs'', fun a => (hlive'' a).trans (hlive₁ a)⟩
    simp only [listMoveTail, hp, hn, hdel, hadd', ok_bind]

/-- **Splicing.** -/
theorem exec_splice (hs : Represents m s) {list head : Addr} {xs l : List Addr}
    (hne : list ≠ head) (hxs : s list = some xs) (hl : s head = some l) :
    ∃ m', listSplice m (.to list) (.to head) = .ok m' ∧
      Represents m' (if xs = [] then s else (s.drop list).set head (xs ++ l)) ∧
      ∀ a, m'.Live a ↔ m.Live a := by
  have hempty := listEmpty_ring (hs.ring list xs hxs) (hs.nodup list xs hxs)
  by_cases hnil : xs = []
  · rw [if_pos hnil]
    exact ⟨m, by simp [listSplice, hempty, hnil], hs, fun _ => Iff.rfl⟩
  · rw [if_neg hnil]
    obtain ⟨m', hrun, hring, he⟩ := Internal.listSplice_ring (hs.ring list xs hxs)
      (hs.ring head l hl) hnil (hs.nodup_splice hne hxs hl)
    exact ⟨m', by simp [listSplice, hempty, hnil, hrun], hs.splice hne hxs hl he hring,
      he.live_iff⟩

/-- **Splicing**, with the list left empty. -/
theorem exec_spliceInit (hs : Represents m s) {list head : Addr} {xs l : List Addr}
    (hne : list ≠ head) (hxs : s list = some xs) (hl : s head = some l) :
    ∃ m', listSpliceInit m (.to list) (.to head) = .ok m' ∧
      Represents m' ((s.set head (xs ++ l)).set list []) ∧ ∀ a, m'.Live a ↔ m.Live a := by
  have hempty := listEmpty_ring (hs.ring list xs hxs) (hs.nodup list xs hxs)
  by_cases hnil : xs = []
  · -- an empty list is neither spliced nor initialised
    refine ⟨m, by simp [listSpliceInit, hempty, hnil], ?_, fun _ => Iff.rfl⟩
    have hsame : (s.set head (xs ++ l)).set list [] = s := by
      rw [hnil, List.nil_append, Lists.set, Lists.set, ← hl, Function.update_eq_self, ← hnil,
        ← hxs, Function.update_eq_self]
    rwa [hsame]
  · obtain ⟨m₁, hrun, hring, he⟩ := Internal.listSplice_ring (hs.ring list xs hxs)
      (hs.ring head l hl) hnil (hs.nodup_splice hne hxs hl)
    have hs₁ := hs.splice hne hxs hl he hring
    obtain ⟨m', hinit, hring', he'⟩ := initListHead_ring
      ((he.live_iff list).mpr (live_of_ring (hs.ring list xs hxs) List.mem_cons_self))
    have hs' := hs₁.init (hs.unused_splice hne hxs hl) he' hring'
    have hsame : ((s.drop list).set head (xs ++ l)).set list [] =
        (s.set head (xs ++ l)).set list [] := by
      simp only [Lists.set, Lists.drop]
      rw [Function.update_comm hne, Function.update_idem]
    rw [hsame] at hs'
    exact ⟨m', by simp [listSpliceInit, hempty, hnil, hrun, hinit], hs',
      fun a => (he'.live_iff a).trans (he.live_iff a)⟩

/-- **One operation.** -/
theorem exec_step {op : Op} {r : Result} (hs : Represents m s)
    (hlive : ∀ a ∈ op.enters, m.Live a) (hstep : s.Step op r t) :
    ∃ m', op.exec m = .ok (m', r) ∧ Represents m' t ∧ ∀ a, m'.Live a ↔ m.Live a := by
  cases hstep with
  | @init x hx =>
    obtain ⟨m', hrun, hring, he⟩ := initListHead_ring (hlive x (List.mem_singleton_self x))
    exact ⟨m', by rw [Op.exec, hrun]; rfl, hs.init hx he hring, he.live_iff⟩
  | @headInit x hx =>
    obtain ⟨m', hrun, hring, he⟩ := initListHead_ring (hlive x (List.mem_singleton_self x))
    exact ⟨m', by rw [Op.exec, listHeadInit, hrun]; rfl, hs.init hx he hring, he.live_iff⟩
  | @add x head l hx hne hl =>
    obtain ⟨m', hrun, h⟩ := (exec_enter hs hx hne hl (hlive x (List.mem_singleton_self x))).1
    exact ⟨m', by rw [Op.exec, hrun]; rfl, h⟩
  | @addTail x head l hx hne hl =>
    obtain ⟨m', hrun, h⟩ := (exec_enter hs hx hne hl (hlive x (List.mem_singleton_self x))).2
    exact ⟨m', by rw [Op.exec, hrun]; rfl, h⟩
  | @del x head l hl hx =>
    obtain ⟨l', hne, hring, hperm, hback⟩ := hs.turned hl hx
    have hnd := hperm.nodup_iff.mpr (hs.nodup head l hl)
    obtain ⟨m', hrun, hring', -, he⟩ := listDel_ring hring hne hnd
    exact ⟨m', by rw [Op.exec, hrun]; rfl,
      hs.unlink hl hx (he.mono hperm.subset) (hback _ hring'), he.live_iff⟩
  | @delInit x head l hl hx =>
    obtain ⟨p, n, m₁, hp, hn, hdel, hs₁, hlive₁, hlx⟩ := hs.unlinked hl hx
    obtain ⟨m', hinit, hring, he⟩ := initListHead_ring hlx
    exact ⟨m', by simp only [Op.exec, listDelInit, hp, hn, hdel, hinit, ok_bind, pure_ok],
      hs₁.init (hs.unused_unlink hl hx).1 he hring, fun a => (he.live_iff a).trans (hlive₁ a)⟩
  | @move x old l head l' hl hx hl' =>
    obtain ⟨m', hrun, h⟩ := (exec_move hs hl hx hl').1
    exact ⟨m', by rw [Op.exec, hrun]; rfl, h⟩
  | @moveTail x old l head l' hl hx hl' =>
    obtain ⟨m', hrun, h⟩ := (exec_move hs hl hx hl').2
    exact ⟨m', by rw [Op.exec, hrun]; rfl, h⟩
  | @splice list head xs l hne hxs hl =>
    obtain ⟨m', hrun, h⟩ := exec_splice hs hne hxs hl
    exact ⟨m', by rw [Op.exec, hrun]; rfl, h⟩
  | @spliceInit list head xs l hne hxs hl =>
    obtain ⟨m', hrun, h⟩ := exec_spliceInit hs hne hxs hl
    exact ⟨m', by rw [Op.exec, hrun]; rfl, h⟩
  | @empty head l hl =>
    exact ⟨m, by rw [Op.exec, listEmpty_ring (hs.ring head l hl) (hs.nodup head l hl)]; rfl, hs,
      fun _ => Iff.rfl⟩
  | @emptyCareful head l hl =>
    exact ⟨m, by rw [Op.exec, listEmptyCareful_ring (hs.ring head l hl) (hs.nodup head l hl)]; rfl,
      hs, fun _ => Iff.rfl⟩
  | @firstEntry head x l hl =>
    have hfirst : nextOf m (.to head) = .ok (.to x) :=
      (follows_nextOf m).head (hs.ring head (x :: l) hl)
    exact ⟨m, by rw [Op.exec, listFirstEntry, hfirst]; rfl, hs, fun _ => Iff.rfl⟩
  | @visit head l hl =>
    have hloop := listForEach_tally (hs.ring head l hl) (hs.nodup head l hl)
      (fun seen pos => seen ++ [pos]) [] (hs.length_lt hl)
    rw [tallied_note] at hloop
    exact ⟨m, by rw [Op.exec, note, hloop]; rfl, hs, fun _ => Iff.rfl⟩
  | @visitBack head l hl =>
    have hloop := listForEachPrev_tally (hs.ring head l hl) (hs.nodup head l hl)
      (fun seen pos => seen ++ [pos]) [] (hs.length_lt hl)
    rw [tallied_note] at hloop
    exact ⟨m, by rw [Op.exec, note, hloop]; rfl, hs, fun _ => Iff.rfl⟩
  | @sweep head l p hl =>
    have hnd := hs.nodup head l hl
    obtain ⟨m', hloop, hring, -, he⟩ :=
      listForEachSafe_sweeps (hs.ring head l hl) hnd p (hs.length_lt hl)
    have hsub : (head :: kept p l).Sublist (head :: l) := (List.filter_sublist).cons_cons head
    refine ⟨m', by rw [Op.exec, hloop]; rfl, hs.set he hring (hnd.sublist hsub) hsub.subset
      (Function.update_self ..) fun h l' hh hl' => ?_, he.live_iff⟩
    have hold : s h = some l' := by simpa [Lists.set, hh] using hl'
    exact ⟨hold, hs.outside hl hold hh⟩

/-- **Programs.**  As long as its callers keep to the contract, a program over `pet_list.h` runs to
    its end without following a pointer that leads nowhere, every operation returns what the lists
    say, and in the end the memory holds the lists of the end. -/
theorem runOps_refines {ops : List Op} {rs : List Result} (hrun : s.Run ops rs t)
    (hs : Represents m s) (hlive : ∀ op ∈ ops, ∀ a ∈ op.enters, m.Live a) :
    ∃ m', run execOp (m, []) ops = .ok (m', rs) ∧ Represents m' t := by
  have hlog : ∀ log, ∃ m', run execOp (m, log) ops = .ok (m', log ++ rs) ∧ Represents m' t := by
    induction hrun generalizing m with
    | nil => exact fun log => ⟨m, by simp, hs⟩
    | @cons s s₁ t op ops r rs hstep hrun ih =>
      intro log
      obtain ⟨m₁, hexec, hs₁, hlive₁⟩ := exec_step hs (hlive op List.mem_cons_self) hstep
      obtain ⟨m', hrest, hs'⟩ := ih hs₁ (fun op' hop a ha =>
        (hlive₁ a).mpr (hlive op' (List.mem_cons_of_mem _ hop) a ha)) (log ++ [r])
      refine ⟨m', ?_, hs'⟩
      rw [run_cons_of_ok (m := (m₁, log ++ [r])) (by rw [execOp, hexec]; rfl), hrest]
      simp
  obtain ⟨m', h, hs'⟩ := hlog []
  exact ⟨m', by simpa using h, hs'⟩

/-- Three objects that have not been used. -/
def threeObjects : Memory :=
  ((Heap.empty.alloc ⟨.null, .null⟩).alloc ⟨.null, .null⟩).alloc ⟨.null, .null⟩

/-- The object 0 is the only head. -/
def oneList (l : List Addr) : Lists := fun head => if head = 0 then some l else none

/-- Objects that are neither its entries nor its head are unused. -/
theorem oneList_unused {l : List Addr} {x : Addr} (hx : x ∉ l) (hne : x ≠ 0) :
    (oneList l).Unused x := by
  refine ⟨fun head l' hl' => ?_, Or.inl (if_neg hne)⟩
  by_cases hh : head = 0
  · obtain rfl : l = l' := by simpa [oneList, hh] using hl'
    exact hx
  · simp [oneList, hh] at hl'

/-- An object becomes an entry of the one list. -/
theorem oneList_enter (l l' : List Addr) {x : Addr} (hne : x ≠ 0) :
    ((oneList l).drop x).set 0 l' = oneList l' := by
  funext head
  by_cases hh : head = 0 <;> by_cases hx : head = x <;>
    simp [Lists.set, Lists.drop, Function.update, oneList, hh, hx, hne]

/-- Two entries go into a list, one at each end, and one is deleted again. -/
theorem runOps_threeObjects :
    ∃ m', run execOp (threeObjects, [])
        [.headInit 0, .addTail 1 0, .add 2 0, .visit 0, .del 2, .firstEntry 0, .visitBack 0] =
      .ok (m', [.done, .done, .done, .seen [.to 2, .to 1], .done, .seen [.to 1],
        .seen [.to 1]]) ∧
      Represents m' (oneList [1]) := by
  have hinit : Lists.set (fun _ => none) 0 [] = oneList [] := by
    funext head
    by_cases hh : head = 0 <;> simp [Lists.set, Function.update, oneList, hh]
  have hdel : (oneList [2, 1]).unlink 2 = oneList [1] := by
    funext head
    by_cases hh : head = 0 <;> simp [Lists.unlink, oneList, hh]
  refine runOps_refines (s := fun _ => none) (.cons (.headInit ⟨by simp, Or.inl rfl⟩) ?_)
    (represents_none _) ?_
  · rw [hinit]
    refine .cons (.addTail (oneList_unused (by simp) (by decide)) (by decide) rfl) ?_
    rw [oneList_enter _ _ (by decide)]
    refine .cons (.add (oneList_unused (by simp) (by decide)) (by decide) rfl) ?_
    rw [oneList_enter _ _ (by decide)]
    have hl : oneList [2, 1] 0 = some [2, 1] := rfl
    refine .cons (.visit hl) (.cons (.del hl (by simp)) ?_)
    rw [hdel]
    have hl' : oneList [1] 0 = some [1] := rfl
    exact .cons (.firstEntry hl') (.cons (.visitBack hl') .nil)
  · intro op hop a ha
    simp only [List.mem_cons, List.not_mem_nil, or_false] at hop
    rcases hop with rfl | rfl | rfl | rfl | rfl | rfl | rfl <;>
      simp only [Op.enters, List.mem_cons, List.not_mem_nil, or_false] at ha <;>
      first
        | exact ha.elim
        | exact ha ▸ rfl

end SimpleHttp.PetList
