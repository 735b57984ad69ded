import Mathlib.Data.List.Induction
import Mathlib.Data.List.Nodup
import Mathlib.Logic.Function.Basic

namespace SimpleHttp.Lib

/-!
# Library — lists whose objects point back to what points to them

A list hangs from a slot, which is its head's or the `next` of an object; every object of the list
knows the slot that it hangs from.

* `Hung k s l`, `Hangs k s l` — the objects `l` follow one another from the slot `s`, and the
  last one ends the list.
* `hook` — a slot is given another object, and the object the slot.
* `Hangs.remove`, `Hangs.insert` — an object is taken out, or put in, with one hook and with two.
* `Hung.nodup`, `Hung.apart` — what points back can only hang once: no two lists share an object.
-/

/-- A place that points to an object. -/
inductive Slot (η ι : Type) where
  | first (head : η)
  | next (a : ι)
  deriving DecidableEq, Repr

/-- What the slots hold, where they can be read: an object, or `NULL`; and where an object says
    that it hangs. -/
structure Hooks (η ι : Type) where
  target : Slot η ι → Option (Option ι)
  slot : ι → Option (Slot η ι)

variable {η ι : Type}

/-- The objects `l` hang one behind the other from `s`. -/
def Hung (k : Hooks η ι) : Slot η ι → List ι → Prop
  | _, [] => True
  | s, a :: l => k.target s = some (some a) ∧ k.slot a = some s ∧ Hung k (.next a) l

/-- The slot behind the objects `l`. -/
def endSlot (s : Slot η ι) : List ι → Slot η ι
  | [] => s
  | a :: l => endSlot (.next a) l

/-- The slots that the objects `l` hang from. -/
def slots (s : Slot η ι) : List ι → List (Slot η ι)
  | [] => []
  | a :: l => s :: slots (.next a) l

/-- `l` hangs on `s`, and the last slot holds no object. -/
structure Hangs (k : Hooks η ι) (s : Slot η ι) (l : List ι) : Prop where
  hung : Hung k s l
  ends : k.target (endSlot s l) = some none

variable {k k' : Hooks η ι} {s : Slot η ι} {l l₁ l₂ : List ι}

/-- The last slot behind two stretches is that of the second. -/
theorem endSlot_append (s : Slot η ι) (l₁ l₂ : List ι) :
    endSlot s (l₁ ++ l₂) = endSlot (endSlot s l₁) l₂ := by
  induction l₁ generalizing s with
  | nil => rfl
  | cons a l₁ ih => exact ih (.next a)

/-- Two stretches hang one behind the other. -/
theorem hung_append : Hung k s (l₁ ++ l₂) ↔ Hung k s l₁ ∧ Hung k (endSlot s l₁) l₂ := by
  induction l₁ generalizing s with
  | nil => simp [Hung, endSlot]
  | cons a l₁ ih => simp only [List.cons_append, Hung, endSlot, ih, and_assoc]

/-- The slots of a list and the one behind it are its own and those of its objects. -/
theorem slots_concat (s : Slot η ι) (l : List ι) :
    slots s l ++ [endSlot s l] = s :: l.map .next := by
  induction l generalizing s with
  | nil => rfl
  | cons a l ih => rw [slots, endSlot, List.cons_append, ih, List.map_cons]

/-- No slot comes twice. -/
theorem nodup_slots (hnd : l.Nodup) (hs : s ∉ l.map .next) :
    (slots s l ++ [endSlot s l]).Nodup := by
  rw [slots_concat, List.nodup_cons]
  exact ⟨hs, hnd.map fun _ _ h => Slot.next.inj h⟩

/-- The last slot is none of those before it. -/
theorem endSlot_notMem_slots (hnd : l.Nodup) (hs : s ∉ l.map .next) : endSlot s l ∉ slots s l := by
  have h := List.nodup_append.mp (nodup_slots hnd hs)
  intro hin
  exact h.2.2 _ hin _ (List.mem_singleton_self _) rfl

/-- A slot of a stretch is the one at its front or that of an object in it. -/
theorem mem_slots {t : Slot η ι} (h : t ∈ slots s l) : t = s ∨ t ∈ l.map .next := by
  have hin : t ∈ slots s l ++ [endSlot s l] := List.mem_append_left _ h
  rw [slots_concat] at hin
  exact List.mem_cons.mp hin

/-- Its last slot is one of these too. -/
theorem mem_endSlot (s : Slot η ι) (l : List ι) : endSlot s l = s ∨ endSlot s l ∈ l.map .next := by
  have hin : endSlot s l ∈ slots s l ++ [endSlot s l] :=
    List.mem_append_right _ (List.mem_singleton_self _)
  rw [slots_concat] at hin
  exact List.mem_cons.mp hin

/-- The last slot is not that of an object elsewhere. -/
theorem endSlot_ne_next {a : ι} (hs : s ≠ .next a) (ha : a ∉ l) : endSlot s l ≠ .next a := by
  rcases mem_endSlot s l with heq | hin
  · rw [heq]
    exact hs
  · obtain ⟨b, hb, heq⟩ := List.mem_map.mp hin
    rw [← heq]
    rintro ⟨⟩
    exact ha hb

/-- Where an object hangs. -/
theorem Hung.slot_eq {a : ι} (h : Hung k s (l₁ ++ a :: l₂)) : k.slot a = some (endSlot s l₁) :=
  (hung_append.mp h).2.2.1

/-- The slot in front of an object points to it. -/
theorem Hung.target_eq {a : ι} (h : Hung k s (l₁ ++ a :: l₂)) :
    k.target (endSlot s l₁) = some (some a) :=
  (hung_append.mp h).2.1

/-- What a slot behind some objects of a list holds. -/
theorem Hangs.target_endSlot (h : Hangs k s (l₁ ++ l₂)) :
    k.target (endSlot s l₁) = some l₂.head? := by
  cases l₂ with
  | nil =>
    have hends := h.ends
    rwa [List.append_nil] at hends
  | cons a l₂ => exact h.hung.target_eq

/-- The slot at the front points to the first object. -/
theorem Hangs.target_slot (h : Hangs k s l) : k.target s = some l.head? :=
  Hangs.target_endSlot (show Hangs k s ([] ++ l) from h)

/-- What is behind a stretch hangs on its last slot. -/
theorem Hangs.tail (h : Hangs k s (l₁ ++ l₂)) : Hangs k (endSlot s l₁) l₂ where
  hung := (hung_append.mp h.hung).2
  ends := by
    rw [← endSlot_append]
    exact h.ends

/-- A stretch hangs together with what hangs on its last slot. -/
theorem Hangs.of_append (h₁ : Hung k s l₁) (h₂ : Hangs k (endSlot s l₁) l₂) :
    Hangs k s (l₁ ++ l₂) where
  hung := hung_append.mpr ⟨h₁, h₂.hung⟩
  ends := by
    rw [endSlot_append]
    exact h₂.ends

/-! ### Frames -/

/-- What hangs is known by its slots and back pointers. -/
theorem Hung.congr (h : Hung k s l) (htarget : ∀ t ∈ slots s l, k'.target t = k.target t)
    (hslot : ∀ a ∈ l, k'.slot a = k.slot a) : Hung k' s l := by
  induction l generalizing s with
  | nil => trivial
  | cons a l ih =>
    obtain ⟨ha, hback, hrest⟩ := h
    refine ⟨(htarget s List.mem_cons_self).trans ha,
      (hslot a List.mem_cons_self).trans hback, ih hrest ?_ ?_⟩
    · exact fun t ht => htarget t (List.mem_cons_of_mem _ ht)
    · exact fun b hb => hslot b (List.mem_cons_of_mem _ hb)

/-- What hangs, end included, is known by its slots and back pointers. -/
theorem Hangs.congr (h : Hangs k s l)
    (htarget : ∀ t, t = s ∨ t ∈ l.map .next → k'.target t = k.target t)
    (hslot : ∀ a ∈ l, k'.slot a = k.slot a) : Hangs k' s l where
  hung := h.hung.congr (fun t ht => htarget t (mem_slots ht)) hslot
  ends := (htarget _ (mem_endSlot s l)).trans h.ends

/-! ### Hooks -/

section Back

variable [DecidableEq ι]

/-- `b`, if it is an object, points back to `s`. -/
def Hooks.back (k : Hooks η ι) (b : Option ι) (s : Slot η ι) : Hooks η ι where
  target := k.target
  slot := match b with
    | none => k.slot
    | some b => Function.update k.slot b (some s)

@[simp] theorem target_back (k : Hooks η ι) (b : Option ι) (s : Slot η ι) :
    (k.back b s).target = k.target := rfl

/-- The back pointer written is read back. -/
theorem slot_back_self (k : Hooks η ι) (b : ι) (s : Slot η ι) :
    (k.back (some b) s).slot b = some s := Function.update_self ..

theorem slot_back_of_ne (k : Hooks η ι) {a : ι} {b : Option ι} (h : b ≠ some a) (s : Slot η ι) :
    (k.back b s).slot a = k.slot a := by
  cases b with
  | none => rfl
  | some b => exact Function.update_of_ne (fun heq => h (congrArg some heq.symm)) ..

/-- Objects apart can be pointed back in any order. -/
theorem back_comm (k : Hooks η ι) {b b' : Option ι} (h : b = none ∨ b ≠ b') (s s' : Slot η ι) :
    (k.back b s).back b' s' = (k.back b' s').back b s := by
  cases b with
  | none => cases b' <;> rfl
  | some b =>
    cases b' with
    | none => rfl
    | some b' =>
      have hne : b ≠ b' := fun heq => h.elim (by simp) fun h => h (congrArg some heq)
      simp only [Hooks.back]
      rw [Function.update_comm hne]

end Back

section Edits

variable [DecidableEq η] [DecidableEq ι]

/-- A slot is pointed at another object. -/
def Hooks.point (k : Hooks η ι) (s : Slot η ι) (b : Option ι) : Hooks η ι :=
  { k with target := Function.update k.target s (some b) }

/-- `s` points to `b`, and `b` back. -/
def Hooks.hook (k : Hooks η ι) (s : Slot η ι) (b : Option ι) : Hooks η ι := (k.point s b).back b s

@[simp] theorem slot_point (k : Hooks η ι) (s : Slot η ι) (b : Option ι) :
    (k.point s b).slot = k.slot := rfl

theorem target_point_of_ne (k : Hooks η ι) {s t : Slot η ι} (h : t ≠ s) (b : Option ι) :
    (k.point s b).target t = k.target t := Function.update_of_ne h ..

/-- Two hooks, with the second object pointed back first. -/
theorem hook_hook_eq (k : Hooks η ι) {b b' : Option ι} (h : b = none ∨ b ≠ b') (s s' : Slot η ι) :
    (k.hook s b).hook s' b' = (((k.back b' s').point s b).back b s).point s' b' :=
  back_comm ((k.point s b).point s' b') h s s'

/-- Two hooks, with both slots pointed before. -/
theorem hook_hook_eq' (k : Hooks η ι) {b b' : Option ι} (h : b = none ∨ b ≠ b')
    (s s' : Slot η ι) :
    (k.hook s b).hook s' b' = (((k.point s b).point s' b').back b' s').back b s :=
  back_comm ((k.point s b).point s' b') h s s'

@[simp] theorem target_hook_self (k : Hooks η ι) (s : Slot η ι) (b : Option ι) :
    (k.hook s b).target s = some b := Function.update_self ..

theorem target_hook_of_ne (k : Hooks η ι) {s t : Slot η ι} (h : t ≠ s) (b : Option ι) :
    (k.hook s b).target t = k.target t := Function.update_of_ne h ..

theorem slot_hook_self (k : Hooks η ι) (s : Slot η ι) (b : ι) :
    (k.hook s (some b)).slot b = some s := Function.update_self ..

theorem slot_hook_of_ne (k : Hooks η ι) (s : Slot η ι) {b : Option ι} {a : ι} (h : b ≠ some a) :
    (k.hook s b).slot a = k.slot a := slot_back_of_ne _ h s

/-- Hooking elsewhere leaves a stretch alone. -/
theorem Hung.hook (h : Hung k s l) {t : Slot η ι} {b : Option ι} (ht : t ∉ slots s l)
    (hb : ∀ a ∈ l, b ≠ some a) : Hung (k.hook t b) s l := by
  apply h.congr
  · intro t' ht'
    apply target_hook_of_ne
    rintro rfl
    exact ht ht'
  · intro a ha
    exact slot_hook_of_ne k t (hb a ha)

/-- A list that neither the slot nor the object is in does not change. -/
theorem Hangs.hook (h : Hangs k s l) {t : Slot η ι} {b : Option ι} (hs : t ≠ s)
    (ht : t ∉ l.map .next) (hb : ∀ a ∈ l, b ≠ some a) : Hangs (k.hook t b) s l := by
  apply h.congr
  · rintro t' (rfl | ht')
    · exact target_hook_of_ne k hs.symm b
    · apply target_hook_of_ne
      rintro rfl
      exact ht ht'
  · intro a ha
    exact slot_hook_of_ne k t (hb a ha)

/-- The list behind a slot is hung from another one. -/
theorem Hangs.rehang (h : Hangs k s l) (hnd : l.Nodup) {t : Slot η ι} (ht : t ∉ l.map .next) :
    Hangs (k.hook t l.head?) t l := by
  cases l with
  | nil => exact ⟨trivial, target_hook_self ..⟩
  | cons b l =>
    obtain ⟨hb, hnd⟩ := List.nodup_cons.mp hnd
    rw [List.map_cons, List.mem_cons, not_or] at ht
    have htail : Hangs (k.hook t (some b)) (.next b) l := by
      refine Hangs.hook ⟨h.hung.2.2, h.ends⟩ ht.1 ht.2 ?_
      rintro a ha ⟨⟩
      exact hb ha
    exact ⟨⟨target_hook_self .., slot_hook_self .., htail.hung⟩, htail.ends⟩

variable {a : ι}

/-- **Removal.**  What points to `a` is given what `a` points to. -/
theorem Hangs.remove (h : Hangs k s (l₁ ++ a :: l₂)) (hnd : (l₁ ++ a :: l₂).Nodup)
    (hs : s ∉ (l₁ ++ a :: l₂).map .next) :
    Hangs (k.hook (endSlot s l₁) l₂.head?) s (l₁ ++ l₂) := by
  obtain ⟨hnd₁, hnd₂, hdisj⟩ := List.nodup_append.mp hnd
  rw [List.map_append, List.mem_append, not_or, List.map_cons, List.mem_cons, not_or] at hs
  have hmem : ∀ {b}, l₂.head? = some b → b ∈ l₂ := List.mem_of_mem_head?
  refine Hangs.of_append ((hung_append.mp h.hung).1.hook (endSlot_notMem_slots hnd₁ hs.1) ?_) ?_
  · intro b hb hhead
    exact hdisj b hb b (List.mem_cons_of_mem _ (hmem hhead)) rfl
  · have htail : Hangs k (.next a) l₂ := ⟨h.tail.hung.2.2, h.tail.ends⟩
    apply htail.rehang (List.nodup_cons.mp hnd₂).2
    -- the slot behind `l₁` is none of `l₂`
    intro hin
    rcases mem_endSlot s l₁ with heq | hmem₁
    · rw [heq] at hin
      exact hs.2.2 hin
    · obtain ⟨b, hb, hnext⟩ := List.mem_map.mp hmem₁
      obtain ⟨c, hc, hnext'⟩ := List.mem_map.mp hin
      obtain rfl : b = c := Slot.next.inj (hnext.trans hnext'.symm)
      exact hdisj b hb b (List.mem_cons_of_mem _ hc) rfl

/-- **Insertion.**  `a` is given what a slot points to, and the slot `a`. -/
theorem Hangs.insert (h : Hangs k s (l₁ ++ l₂)) (hnd : (l₁ ++ a :: l₂).Nodup)
    (hs : s ∉ (l₁ ++ a :: l₂).map .next) :
    Hangs ((k.hook (.next a) l₂.head?).hook (endSlot s l₁) (some a)) s (l₁ ++ a :: l₂) := by
  obtain ⟨hnd₁, hnd₂, hdisj⟩ := List.nodup_append.mp hnd
  obtain ⟨ha, hnd₂⟩ := List.nodup_cons.mp hnd₂
  rw [List.map_append, List.mem_append, not_or, List.map_cons, List.mem_cons, not_or] at hs
  have hmem : ∀ {b}, l₂.head? = some b → b ∈ l₂ := List.mem_of_mem_head?
  have hout : ∀ {b}, b ∈ l₁ → b ≠ a := fun hb => hdisj _ hb a List.mem_cons_self
  have hnext : Slot.next a ∉ l₁.map (Slot.next : ι → Slot η ι) := by
    intro hin
    obtain ⟨b, hb, heq⟩ := List.mem_map.mp hin
    exact hout hb (Slot.next.inj heq)
  have hnext' : Slot.next a ∉ l₂.map (Slot.next : ι → Slot η ι) := by
    intro hin
    obtain ⟨b, hb, heq⟩ := List.mem_map.mp hin
    exact ha (Slot.next.inj heq ▸ hb)
  -- the slot behind `l₁` is neither that of `a` nor one of `l₂`
  have hend : endSlot s l₁ ≠ .next a :=
    endSlot_ne_next (fun heq => hs.2.1 heq) fun hin => hout hin rfl
  have hend' : endSlot s l₁ ∉ l₂.map .next := by
    intro hin
    rcases mem_endSlot s l₁ with heq | hin₁
    · rw [heq] at hin
      exact hs.2.2 hin
    · obtain ⟨b, hb, hb'⟩ := List.mem_map.mp hin₁
      obtain ⟨c, hc, hc'⟩ := List.mem_map.mp hin
      obtain rfl : b = c := Slot.next.inj (hb'.trans hc'.symm)
      exact hdisj b hb b (List.mem_cons_of_mem _ hc) rfl
  have hfront : Hung (k.hook (.next a) l₂.head?) s l₁ := by
    apply (hung_append.mp h.hung).1.hook
    · intro hin
      rcases mem_slots hin with heq | hin
      · exact hs.2.1 heq.symm
      · exact hnext hin
    · intro b hb hhead
      exact hdisj b hb b (List.mem_cons_of_mem _ (hmem hhead)) rfl
  have htail : Hangs (k.hook (.next a) l₂.head?) (.next a) l₂ := h.tail.rehang hnd₂ hnext'
  have htail' : Hangs ((k.hook (.next a) l₂.head?).hook (endSlot s l₁) (some a)) (.next a) l₂ := by
    apply htail.hook hend hend'
    rintro b hb ⟨⟩
    exact ha hb
  refine Hangs.of_append (hfront.hook (endSlot_notMem_slots hnd₁ hs.1) ?_) ?_
  · rintro b hb ⟨⟩
    exact hout hb rfl
  · exact ⟨⟨target_hook_self .., slot_hook_self .., htail'.hung⟩, htail'.ends⟩

end Edits

/-! ### What points back hangs once -/

/-- From an object, the way back to a head is the only one. -/
theorem Hung.unique {head head' : η} {a : ι} {l l' : List ι} (h : Hung k (.first head) (l ++ [a]))
    (h' : Hung k (.first head') (l' ++ [a])) : head = head' ∧ l = l' := by
  induction l using List.reverseRecOn generalizing a l' with
  | nil =>
    have hslot := h.slot_eq.symm.trans h'.slot_eq
    induction l' using List.reverseRecOn with
    | nil => exact ⟨Slot.first.inj (Option.some.inj hslot), rfl⟩
    | append_singleton l' b _ =>
      rw [endSlot_append] at hslot
      cases hslot
  | append_singleton l b ih =>
    have hslot := h.slot_eq.symm.trans h'.slot_eq
    induction l' using List.reverseRecOn with
    | nil =>
      rw [endSlot_append] at hslot
      cases hslot
    | append_singleton l' b' _ =>
      rw [endSlot_append, endSlot_append] at hslot
      obtain rfl : b = b' := Slot.next.inj (Option.some.inj hslot)
      obtain ⟨hhead, hl⟩ := ih (hung_append.mp h).1 (hung_append.mp h').1
      exact ⟨hhead, congrArg (· ++ [b]) hl⟩

/-- The stretch up to an object, and with it. -/
theorem Hung.upTo {a : ι} (h : Hung k s (l₁ ++ a :: l₂)) : Hung k s (l₁ ++ [a]) := by
  rw [← List.singleton_append, ← List.append_assoc] at h
  exact (hung_append.mp h).1

/-- An object hangs on one head only. -/
theorem Hung.apart {head head' : η} {l l' : List ι} (h : Hung k (.first head) l)
    (h' : Hung k (.first head') l') {a : ι} (ha : a ∈ l) (ha' : a ∈ l') : head = head' := by
  obtain ⟨l₁, l₂, rfl⟩ := List.append_of_mem ha
  obtain ⟨l₁', l₂', rfl⟩ := List.append_of_mem ha'
  exact (h.upTo.unique h'.upTo).1

/-- An object hangs there once. -/
theorem Hung.nodup {head : η} {l : List ι} (h : Hung k (.first head) l) : l.Nodup := by
  induction l using List.reverseRecOn with
  | nil => exact List.nodup_nil
  | append_singleton l a ih =>
    rw [← List.concat_eq_append, List.nodup_concat]
    refine ⟨fun hin => ?_, ih (hung_append.mp h).1⟩
    obtain ⟨l₁, l₂, rfl⟩ := List.append_of_mem hin
    -- the two ways to `a` would be of different lengths
    have heq := (h.unique (hung_append.mp h).1.upTo).2
    have hlength := congrArg List.length heq
    simp at hlength

end SimpleHttp.Lib
