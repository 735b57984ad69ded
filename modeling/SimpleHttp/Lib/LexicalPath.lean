import Mathlib.Data.List.Infix

namespace SimpleHttp.Lib

/-!
# Library — lexical resolution of a path

A path is a list of steps: enter a directory or file by name, go up, or stay.

* `resolve dir s` — follow the steps from `dir`, a stack of names below the directory the walk
  starts in; `none` if the walk leaves that directory.
* `resolve_isSome_iff` — the walk stays inside exactly if no prefix of the path goes up more
  often than it has names to leave.
-/

variable {ν : Type*}

/-- What one component of a path does. -/
inductive Step (ν : Type*) where
  | enter (name : ν)
  | up
  | stay
  deriving DecidableEq

/-- A step to the parent. -/
def Step.isUp : Step ν → Bool
  | .up => true
  | _ => false

/-- A step into a directory. -/
def Step.isEnter : Step ν → Bool
  | .enter _ => true
  | _ => false

/-- Follow the steps from the directory `dir`, innermost name first. -/
def resolve : List ν → List (Step ν) → Option (List ν)
  | dir, [] => some dir
  | dir, .enter name :: s => resolve (name :: dir) s
  | [], .up :: _ => none
  | _ :: dir, .up :: s => resolve dir s
  | dir, .stay :: s => resolve dir s

/-- A property of all prefixes, one item at a time. -/
theorem forall_prefix_cons_iff {α : Type*} {P : List α → Prop} {a : α} {s : List α} :
    (∀ pre, pre <+: a :: s → P pre) ↔ P [] ∧ ∀ pre, pre <+: s → P (a :: pre) := by
  constructor
  · intro h
    exact ⟨h [] List.nil_prefix, fun pre hpre => h _ ((List.prefix_cons_inj a).mpr hpre)⟩
  · rintro ⟨hnil, hcons⟩ pre hpre
    rcases List.prefix_cons_iff.mp hpre with rfl | ⟨t, rfl, ht⟩
    · exact hnil
    · exact hcons t ht

/-- **Staying inside.**  A walk leaves its start exactly if some prefix of it goes up more often
    than it enters, counting the names of `dir` as entered. -/
theorem resolve_isSome_iff (dir : List ν) (s : List (Step ν)) :
    (resolve dir s).isSome ↔
      ∀ pre, pre <+: s → pre.countP Step.isUp ≤ dir.length + pre.countP Step.isEnter := by
  induction s generalizing dir with
  | nil => simp [resolve]
  | cons step s ih =>
    rw [forall_prefix_cons_iff]
    cases step with
    | enter name =>
      rw [resolve, ih]
      simp only [List.countP_cons, List.countP_nil, Step.isUp, Step.isEnter, List.length_cons,
        Bool.false_eq_true, if_false, if_true]
      exact ⟨fun h => ⟨by omega, fun pre hpre => by have := h pre hpre; omega⟩,
        fun h pre hpre => by have := h.2 pre hpre; omega⟩
    | stay =>
      rw [resolve, ih]
      simp [Step.isUp, Step.isEnter]
    | up =>
      cases dir with
      | nil =>
        -- the first step already leaves
        simp only [resolve, Option.isSome_none, Bool.false_eq_true, false_iff, not_and, not_forall]
        intro _
        exact ⟨[], List.nil_prefix, by simp [Step.isUp, Step.isEnter]⟩
      | cons name dir =>
        rw [resolve, ih]
        simp only [List.countP_cons, List.countP_nil, Step.isUp, Step.isEnter, List.length_cons,
          Bool.false_eq_true, if_false, if_true]
        exact ⟨fun h => ⟨by omega, fun pre hpre => by have := h pre hpre; omega⟩,
          fun h pre hpre => by have := h.2 pre hpre; omega⟩

end SimpleHttp.Lib
