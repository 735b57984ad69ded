import Mathlib.Data.List.Cycle

namespace SimpleHttp.Lib

/-!
# Library — rings of doubly linked objects

`Links` is what the two pointers of each object lead to.  A ring is a cycle of objects that are
linked both ways, so a list that is threaded through its head can be turned until the place of an
edit is in front.

* `Ring.insert_after`, `Ring.insert_before`, `Ring.remove`, `Ring.splice` — the edits, each as the
  two or three pairs that it joins.
* `Ring.congr` — an edit elsewhere leaves a ring alone.
* `Ring.flip` — the ring against its direction.
-/

variable {ι : Type}

/-- What the pointers of each object lead to, as far as they lead to an object. -/
structure Links (ι : Type) where
  succ : ι → Option ι
  pred : ι → Option ι

namespace Links

/-- `a` and `b` are linked both ways. -/
def Joined (k : Links ι) (a b : ι) : Prop := k.succ a = some b ∧ k.pred b = some a

/-- Every object of the cycle is linked to the next one. -/
def Ring (k : Links ι) (c : Cycle ι) : Prop := c.Chain k.Joined

/-- The links the other way round. -/
def flip (k : Links ι) : Links ι := ⟨k.pred, k.succ⟩

/-- A ring, opened in front of one of its members. -/
theorem ring_cons {k : Links ι} {a : ι} {l : List ι} :
    k.Ring ↑(a :: l) ↔ (a :: (l ++ [a])).IsChain k.Joined := Iff.rfl

/-- The member at both ends is one member. -/
theorem mem_turn {a x : ι} {l : List ι} (h : x ∈ a :: (l ++ [a])) : x ∈ a :: l := by
  simp only [List.mem_cons, List.mem_append, List.not_mem_nil, or_false] at h ⊢
  tauto

/-- A ring, turned. -/
theorem ring_append_comm {k : Links ι} {l₁ l₂ : List ι} :
    k.Ring ↑(l₁ ++ l₂) ↔ k.Ring ↑(l₂ ++ l₁) := by
  have h : (↑(l₁ ++ l₂) : Cycle ι) = ↑(l₂ ++ l₁) := Cycle.coe_eq_coe.mpr List.isRotated_append
  rw [h]

/-- **Frame.**  A ring depends on the pointers of its own objects only. -/
theorem Ring.congr {k k' : Links ι} {c : Cycle ι} (h : k.Ring c)
    (heq : ∀ a ∈ c, k'.succ a = k.succ a ∧ k'.pred a = k.pred a) : k'.Ring c := by
  induction c using Cycle.induction_on with
  | nil => trivial
  | cons a l =>
    simp only [Cycle.mem_coe_iff] at heq
    refine List.IsChain.imp_of_mem_imp (fun u v hu hv huv => ?_) h
    exact ⟨(heq u (mem_turn hu)).1.trans huv.1, (heq v (mem_turn hv)).2.trans huv.2⟩

/-- The successor of the first member. -/
theorem Ring.succ_eq {k : Links ι} {a : ι} {l : List ι} (h : k.Ring ↑(a :: l)) :
    k.succ a = (l ++ [a]).head? := by
  rw [ring_cons] at h
  cases l with
  | nil => exact (List.isChain_pair.mp h).1
  | cons b l => exact (List.isChain_cons_cons.mp h).1.1

/-- The predecessor of the first member. -/
theorem Ring.pred_eq {k : Links ι} {a : ι} {l : List ι} (h : k.Ring ↑(a :: l)) :
    k.pred a = (a :: l).getLast? := by
  rcases List.eq_nil_or_concat l with rfl | ⟨l, b, rfl⟩
  · exact (List.isChain_pair.mp (ring_cons.mp h)).2
  · rw [ring_cons, List.concat_eq_append, List.append_assoc, List.singleton_append,
      List.isChain_cons_append_cons_cons] at h
    rw [List.concat_eq_append, ← List.cons_append, List.getLast?_append]
    exact h.2.1.2

/-- What follows `a` around its ring starts with its successor. -/
theorem Ring.around {k : Links ι} {a b : ι} {l : List ι} (h : k.Ring ↑(a :: l))
    (hb : k.succ a = some b) : ∃ ys, l ++ [a] = b :: ys := by
  rw [h.succ_eq] at hb
  exact ⟨_, (List.cons_head?_tail hb).symm⟩

/-- Successors stay in the ring. -/
theorem Ring.exists_succ {k : Links ι} {x : ι} {l : List ι} (h : k.Ring ↑l) (hx : x ∈ l) :
    ∃ y ∈ l, k.succ x = some y := by
  obtain ⟨pre, post, rfl⟩ := List.append_of_mem hx
  rw [ring_append_comm, List.cons_append] at h
  obtain ⟨y, hy⟩ : ∃ y, (post ++ pre ++ [x]).head? = some y :=
    Option.isSome_iff_exists.mp (by simp)
  refine ⟨y, ?_, h.succ_eq.trans hy⟩
  have hmem := List.mem_of_head? hy
  simp only [List.mem_append, List.mem_cons, List.not_mem_nil, or_false] at hmem ⊢
  tauto

/-- Predecessors do too. -/
theorem Ring.exists_pred {k : Links ι} {x : ι} {l : List ι} (h : k.Ring ↑l) (hx : x ∈ l) :
    ∃ y ∈ l, k.pred x = some y := by
  obtain ⟨pre, post, rfl⟩ := List.append_of_mem hx
  rw [ring_append_comm, List.cons_append] at h
  obtain ⟨y, hy⟩ : ∃ y, (x :: (post ++ pre)).getLast? = some y :=
    Option.isSome_iff_exists.mp (by simp)
  refine ⟨y, ?_, h.pred_eq.trans hy⟩
  have hmem := List.mem_of_getLast? hy
  simp only [List.mem_append, List.mem_cons] at hmem ⊢
  tauto

/-- The other way round, it is the ring of the reversed list. -/
theorem Ring.flip {k : Links ι} {a : ι} {l : List ι} (h : k.Ring ↑(a :: l)) :
    k.flip.Ring ↑(a :: l.reverse) := by
  rw [ring_cons] at h ⊢
  have hrev : a :: (l.reverse ++ [a]) = (a :: (l ++ [a])).reverse := by simp
  rw [hrev, List.isChain_reverse]
  exact h.imp fun x y hxy => ⟨hxy.2, hxy.1⟩

/-! ### Edits -/

variable [DecidableEq ι]

/-- Join `a` to `b`. -/
def join (k : Links ι) (a b : ι) : Links ι where
  succ := Function.update k.succ a (some b)
  pred := Function.update k.pred b (some a)

/-- Take the pointers of `x` away. -/
def cut (k : Links ι) (x : ι) : Links ι where
  succ := Function.update k.succ x none
  pred := Function.update k.pred x none

theorem joined_join (k : Links ι) (a b : ι) : (k.join a b).Joined a b :=
  ⟨Function.update_self .., Function.update_self ..⟩

/-- Joining two members leaves the other links alone. -/
theorem Joined.join {k : Links ι} {a b x y : ι} (h : k.Joined x y) (hx : x ≠ a) (hy : y ≠ b) :
    (k.join a b).Joined x y :=
  ⟨(Function.update_of_ne hx ..).trans h.1, (Function.update_of_ne hy ..).trans h.2⟩

/-- A path that does not start a step at `a` and does not end one at `b` is not concerned. -/
theorem path_join {k : Links ι} {a b : ι} {l : List ι} (h : l.IsChain k.Joined)
    (ha : a ∉ l.dropLast) (hb : b ∉ l.tail) : l.IsChain (k.join a b).Joined := by
  induction l with
  | nil => exact .nil
  | cons x l ih =>
    cases l with
    | nil => exact .singleton x
    | cons y l =>
      rw [List.isChain_cons_cons] at h ⊢
      rw [List.dropLast_cons_cons, List.mem_cons, not_or] at ha
      rw [List.tail_cons, List.mem_cons, not_or] at hb
      exact ⟨h.1.join (Ne.symm ha.1) (Ne.symm hb.1), ih h.2 ha.2 hb.2⟩

/-- An object joined to itself is a ring. -/
theorem ring_join_self (k : Links ι) (a : ι) : (k.join a a).Ring ↑[a] :=
  (Cycle.chain_singleton _ _).mpr (joined_join k a a)

/-- **Insertion behind `a`.** -/
theorem Ring.insert_after {k : Links ι} {a b x : ι} {l : List ι} (h : k.Ring ↑(a :: l))
    (hnd : (a :: x :: l).Nodup) (hb : k.succ a = some b) :
    ((k.join x b).join a x).Ring ↑(a :: x :: l) := by
  obtain ⟨ys, hys⟩ := h.around hb
  simp only [List.nodup_cons, List.mem_cons, not_or] at hnd
  obtain ⟨⟨hax, hal⟩, hxl, hl⟩ := hnd
  have hxys : x ∉ b :: ys := by
    rw [← hys]
    simp [hxl, Ne.symm hax]
  have hbys : b ∉ ys := by
    have hturn : (l ++ [a]).Nodup :=
      (List.perm_append_singleton a l).nodup_iff.mpr (List.nodup_cons.mpr ⟨hal, hl⟩)
    rw [hys] at hturn
    exact (List.nodup_cons.mp hturn).1
  rw [ring_cons, List.cons_append, hys, List.isChain_cons_cons, List.isChain_cons_cons]
  rw [ring_cons, hys, List.isChain_cons_cons] at h
  refine ⟨joined_join .., (joined_join ..).join (Ne.symm hax) ?_, ?_⟩
  · rintro rfl
    exact hxys List.mem_cons_self
  · -- from `b` around to `a`: no step starts at `a` or `x`, none ends at `b` or `x`
    have hpath := path_join h.2 (fun hin => hxys (List.mem_of_mem_dropLast hin)) hbys
    refine path_join hpath ?_ (fun hin => hxys (List.mem_cons_of_mem _ hin))
    rwa [← hys, List.dropLast_concat]

/-- **Insertion before `a`.** -/
theorem Ring.insert_before {k : Links ι} {a b x : ι} {l : List ι} (h : k.Ring ↑(a :: l))
    (hnd : (a :: x :: l).Nodup) (hb : k.pred a = some b) :
    ((k.join x a).join b x).Ring ↑(a :: (l ++ [x])) := by
  rw [h.pred_eq] at hb
  rcases List.eq_nil_or_concat l with rfl | ⟨l, y, rfl⟩
  · obtain rfl : a = b := by simpa using hb
    exact h.insert_after hnd h.succ_eq
  · rw [List.concat_eq_append] at h hnd hb ⊢
    rw [← List.cons_append, List.getLast?_append] at hb
    obtain rfl : y = b := by simpa using hb
    -- turned until the object before `a` is in front
    rw [← List.cons_append, ring_append_comm, List.singleton_append] at h
    have hperm : (a :: x :: (l ++ [y])).Perm (y :: x :: a :: l) := by
      rw [← List.cons_append, ← List.cons_append]
      exact List.perm_append_comm.trans ((List.Perm.swap x a l).cons y)
    have hring : ((k.join x a).join y x).Ring ↑([y, x] ++ a :: l) :=
      h.insert_after (hperm.nodup_iff.mp hnd) h.succ_eq
    simpa using ring_append_comm.mp hring

/-- **Removal of `x`.** -/
theorem Ring.remove {k : Links ι} {p n x : ι} {l : List ι} (h : k.Ring ↑(x :: l))
    (hnd : l.Nodup) (hl : l ≠ []) (hp : k.pred x = some p) (hn : k.succ x = some n) :
    (k.join p n).Ring ↑l := by
  rw [h.pred_eq] at hp
  rw [h.succ_eq] at hn
  cases l with
  | nil => exact absurd rfl hl
  | cons b l =>
    obtain rfl : b = n := by simpa using hn
    rw [List.getLast?_cons_cons] at hp
    have hpre : b :: l = (b :: l).dropLast ++ [p] := (List.dropLast_append_getLast? p hp).symm
    rw [ring_cons, List.cons_append, List.isChain_cons_cons] at h
    have hpath := h.2
    rw [← List.cons_append, hpre, List.append_assoc, List.singleton_append,
      List.isChain_append_cons_cons] at hpath
    rw [ring_cons, ← List.cons_append, hpre, List.append_assoc, List.singleton_append,
      List.isChain_append_cons_cons]
    refine ⟨path_join hpath.1 ?_ ?_, joined_join .., .singleton _⟩
    · rw [List.dropLast_concat]
      rw [hpre] at hnd
      exact fun hin => (List.nodup_append.mp hnd).2.2 _ hin _ List.mem_cons_self rfl
    · rw [← hpre]
      exact (List.nodup_cons.mp hnd).1

/-- **Splicing.**  The objects behind `b` go between `a` and what follows it. -/
theorem Ring.splice {k : Links ι} {a b n f t : ι} {l m : List ι} (ha : k.Ring ↑(a :: l))
    (hb : k.Ring ↑(b :: m)) (hnd : (a :: l ++ b :: m).Nodup) (hm : m ≠ [])
    (hn : k.succ a = some n) (hf : k.succ b = some f) (ht : k.pred b = some t) :
    ((k.join a f).join t n).Ring ↑(a :: (m ++ l)) := by
  obtain ⟨ys, hys⟩ := ha.around hn
  obtain ⟨zs, hzs⟩ := hb.around hf
  rw [hb.pred_eq] at ht
  cases m with
  | nil => exact absurd rfl hm
  | cons f' m =>
    obtain ⟨rfl, -⟩ : f' = f ∧ m ++ [b] = zs := by simpa using hzs
    rw [List.getLast?_cons_cons] at ht
    have hpre : f' :: m = (f' :: m).dropLast ++ [t] := (List.dropLast_append_getLast? t ht).symm
    -- who is where
    have hnl : n ∈ l ++ [a] := hys ▸ List.mem_cons_self
    have htm : t ∈ f' :: m := List.mem_of_getLast? ht
    obtain ⟨hal, hbm, hdis⟩ := List.nodup_append.mp hnd
    have hapart : ∀ u ∈ l ++ [a], ∀ v ∈ f' :: m, u ≠ v := by
      intro u hu v hv
      exact hdis u (by simpa [or_comm] using hu) v (List.mem_cons_of_mem _ hv)
    have hna : (n :: ys).Nodup := by
      rw [← hys]
      exact (List.perm_append_comm.nodup_iff).mp hal
    have hnm : (f' :: m).Nodup := (List.nodup_cons.mp hbm).2
    rw [ring_cons, List.cons_append] at hb
    have hmid : (f' :: m).IsChain k.Joined := by
      rw [List.isChain_cons_cons, ← List.cons_append] at hb
      exact (List.isChain_append.mp hb.2).1
    rw [ring_cons, hys, List.isChain_cons_cons] at ha
    rw [ring_cons, List.append_assoc, hys, hpre, List.append_assoc, List.singleton_append,
      List.isChain_cons_append_cons_cons, ← hpre, List.isChain_cons_cons]
    refine ⟨⟨(joined_join ..).join (hapart a (by simp) t htm)
      (Ne.symm (hapart n hnl f' List.mem_cons_self)), path_join (path_join hmid ?_ ?_) ?_ ?_⟩,
      joined_join .., path_join (path_join ha.2 ?_ ?_) ?_ ?_⟩
    · exact fun hin => hapart a (by simp) a (List.mem_of_mem_dropLast hin) rfl
    · exact (List.nodup_cons.mp hnm).1
    · intro hin
      rw [hpre] at hnm
      exact (List.nodup_append.mp hnm).2.2 _ hin _ List.mem_cons_self rfl
    · exact fun hin => hapart n hnl n (List.mem_cons_of_mem _ hin) rfl
    · rw [← hys, List.dropLast_concat]
      exact fun hin => (List.nodup_cons.mp hal).1 hin
    · intro hin
      exact hapart f' (hys ▸ List.mem_cons_of_mem _ hin) f' List.mem_cons_self rfl
    · intro hin
      exact hapart t (hys ▸ List.mem_of_mem_dropLast hin) t htm rfl
    · exact (List.nodup_cons.mp hna).1

end Links

end SimpleHttp.Lib
