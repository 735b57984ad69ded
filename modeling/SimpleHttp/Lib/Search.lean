import Mathlib.Data.List.Infix
import Mathlib.Data.List.Basic

namespace SimpleHttp.Lib

/-!
# Library — the first occurrence of a pattern, in a list and in a chunked stream

* `findFirst pat s` — the part of `s` that starts at the first occurrence of `pat`.
* `after pat s` — what follows that occurrence.
* `before pat s` — what comes before it, all of `s` if there is none.
* `Completes pat h` — `h` ends in `pat` and has no earlier occurrence; `after_eq_some_iff`
  says that `after` splits exactly behind such an `h`.
* `upTo pat acc cs` — an incremental reader: append the chunks `cs` to `acc` one by one and
  stop with the first that completes `pat`.  `upTo_eq_none_iff` and `after_upTo` relate it to
  the search in the whole stream, so that the chunk boundaries drop out.
-/

variable {α : Type*} [DecidableEq α]

/-! ### First occurrence -/

/-- The suffix of the list that starts at the first occurrence of `pat`. -/
def findFirst (pat : List α) : List α → Option (List α)
  | [] => if pat = [] then some [] else none
  | a :: s => if pat <+: a :: s then some (a :: s) else findFirst pat s

/-- What follows the first occurrence of `pat`. -/
def after (pat s : List α) : Option (List α) :=
  (findFirst pat s).map (·.drop pat.length)

/-- What comes before the first occurrence of `pat`, or everything. -/
def before (pat : List α) : List α → List α
  | [] => []
  | a :: s => if pat <+: a :: s then [] else a :: before pat s

/-- `h` ends in `pat`, and `pat` occurs nowhere before its end. -/
def Completes (pat h : List α) : Prop :=
  pat <:+ h ∧ ¬ pat <:+: h.dropLast

omit [DecidableEq α] in
/-- What completes a pattern is not empty. -/
theorem Completes.ne_nil {pat h : List α} (hpat : pat ≠ []) (hc : Completes pat h) : h ≠ [] := by
  rintro rfl
  exact hpat (List.suffix_nil.mp hc.1)

/-- A search fails exactly where there is nothing to find. -/
theorem findFirst_eq_none_iff (pat s : List α) : findFirst pat s = none ↔ ¬ pat <:+: s := by
  induction s with
  | nil => simp [findFirst]
  | cons a s ih =>
    unfold findFirst
    rw [List.infix_cons_iff]
    by_cases h : pat <+: a :: s
    · simp [h]
    · simp [h, ih]

/-- A pattern that does not start with `a` is not found at a leading `a`. -/
theorem findFirst_cons_of_ne {p a : α} (pat s : List α) (h : p ≠ a) :
    findFirst (p :: pat) (a :: s) = findFirst (p :: pat) s := by
  rw [findFirst, if_neg]
  rw [List.cons_prefix_cons]
  exact fun hp => h hp.1

/-- A stretch without the pattern's first element is passed over. -/
theorem findFirst_append_of_not_mem {p : α} (pat w s : List α) (h : p ∉ w) :
    findFirst (p :: pat) (w ++ s) = findFirst (p :: pat) s := by
  induction w with
  | nil => rfl
  | cons a w ih =>
    rw [List.mem_cons, not_or] at h
    rw [List.cons_append, findFirst_cons_of_ne _ _ h.1, ih h.2]

/-- An occurrence stays the first one when the text grows at its end. -/
theorem findFirst_append {pat s r : List α} (h : findFirst pat s = some r) (t : List α) :
    findFirst pat (s ++ t) = some (r ++ t) := by
  induction s with
  | nil =>
    rw [findFirst] at h
    split at h
    · rename_i hp
      obtain rfl : r = [] := by simpa using h.symm
      cases t with
      | nil => simp [findFirst, hp]
      | cons b t => simp [findFirst, hp]
    · cases h
  | cons a s ih =>
    rw [List.cons_append, findFirst]
    by_cases hp : pat <+: a :: s
    · have hr : a :: s = r := by simpa [findFirst, hp] using h
      have hpt : pat <+: a :: (s ++ t) := hp.trans (List.prefix_append (a :: s) t)
      rw [if_pos hpt, ← hr, List.cons_append]
    · rw [findFirst, if_neg hp] at h
      -- the match found further on is as long as `pat`, so an earlier one cannot reach into `t`
      have hlen : pat.length ≤ (a :: s).length := by
        have hin : pat <:+: s := by
          by_contra hn
          rw [(findFirst_eq_none_iff pat s).mpr hn] at h
          cases h
        exact le_trans hin.length_le (by simp)
      rw [if_neg, ih h]
      intro hpt
      exact hp (List.prefix_of_prefix_length_le hpt (List.prefix_append (a :: s) t) hlen)

/-- What is found begins with the pattern. -/
theorem prefix_of_findFirst {pat s r : List α} (h : findFirst pat s = some r) : pat <+: r := by
  induction s with
  | nil =>
    rw [findFirst] at h
    split at h
    · rename_i hp; simp [hp]
    · cases h
  | cons a s ih =>
    rw [findFirst] at h
    split at h
    · rename_i hp; obtain rfl : a :: s = r := by simpa using h
      exact hp
    · exact ih h

/-- More text behind what is found does not matter. -/
theorem after_append {pat s b : List α} (h : after pat s = some b) (t : List α) :
    after pat (s ++ t) = some (b ++ t) := by
  unfold after at h ⊢
  obtain ⟨r, hr, rfl⟩ := Option.map_eq_some_iff.mp h
  rw [findFirst_append hr t, Option.map_some,
    List.drop_append_of_le_length (prefix_of_findFirst hr).length_le]

/-- What is before the pattern is the front of the text. -/
theorem before_prefix (pat s : List α) : before pat s <+: s := by
  induction s with
  | nil => exact List.prefix_refl []
  | cons a s ih =>
    rw [before]
    split
    · exact List.nil_prefix
    · exact (List.cons_prefix_cons).mpr ⟨rfl, ih⟩

/-- There is no occurrence before the first one. -/
theorem not_infix_before {pat : List α} (hpat : pat ≠ []) (s : List α) :
    ¬ pat <:+: before pat s := by
  induction s with
  | nil => simpa [before] using hpat
  | cons a s ih =>
    rw [before]
    split
    · simpa using hpat
    · rename_i hp
      rw [List.infix_cons_iff, not_or]
      refine ⟨fun h => hp (h.trans ?_), ih⟩
      exact (List.cons_prefix_cons).mpr ⟨rfl, before_prefix pat s⟩

/-- The text is cut at the pattern. -/
theorem exists_before_append {pat s : List α} (h : pat <:+: s) :
    ∃ t, before pat s ++ (pat ++ t) = s := by
  induction s with
  | nil =>
    obtain rfl := List.eq_nil_of_infix_nil h
    exact ⟨[], rfl⟩
  | cons a s ih =>
    rw [before]
    split
    · rename_i hp
      exact hp
    · rename_i hp
      obtain ⟨t, ht⟩ := ih ((List.infix_cons_iff.mp h).resolve_left hp)
      exact ⟨t, by rw [List.cons_append, ht]⟩

/-- Where the first occurrence is does not depend on what follows it. -/
theorem before_append {pat s : List α} (h : pat <:+: s) (t : List α) :
    before pat (s ++ t) = before pat s := by
  induction s with
  | nil =>
    obtain rfl := List.eq_nil_of_infix_nil h
    cases t with
    | nil => rfl
    | cons b t => simp [before]
  | cons a s ih =>
    rw [List.cons_append, before, before]
    by_cases hp : pat <+: a :: s
    · have hpt : pat <+: a :: (s ++ t) := hp.trans (List.prefix_append (a :: s) t)
      rw [if_pos hp, if_pos hpt]
    · have hin := (List.infix_cons_iff.mp h).resolve_left hp
      rw [if_neg hp, if_neg, ih hin]
      intro hpt
      have hlen : pat.length ≤ (a :: s).length := hin.length_le.trans (by simp)
      exact hp (List.prefix_of_prefix_length_le hpt (List.prefix_append (a :: s) t) hlen)

/-- A word without the first item of the pattern is passed over. -/
theorem before_append_of_not_mem {p : α} {w : List α} (h : p ∉ w) (pat s : List α) :
    before (p :: pat) (w ++ s) = w ++ before (p :: pat) s := by
  induction w with
  | nil => rfl
  | cons a w ih =>
    rw [List.mem_cons, not_or] at h
    have hno : ¬ p :: pat <+: a :: (w ++ s) := fun hp => h.1 (List.cons_prefix_cons.mp hp).1
    rw [List.cons_append, before, if_neg hno, ih h.2, List.cons_append]

/-- A stretch without the pattern is passed over, if the pattern does not start at its end. -/
theorem before_pair_append {p q : α} {w s : List α} (h : ¬ [p, q] <:+: w)
    (hs : ∀ b ∈ s.head?, b ≠ q) : before [p, q] (w ++ s) = w ++ before [p, q] s := by
  induction w with
  | nil => rfl
  | cons a w ih =>
    rw [List.infix_cons_iff, not_or] at h
    rw [List.cons_append, before, if_neg, ih h.2, List.cons_append]
    intro hp
    cases w with
    | nil =>
      obtain ⟨-, t, ht⟩ := List.cons_prefix_cons.mp hp
      exact hs q (by rw [List.nil_append] at ht; rw [← ht]; rfl) rfl
    | cons b w =>
      obtain ⟨rfl, hq⟩ := List.cons_prefix_cons.mp hp
      obtain ⟨rfl, -⟩ := List.cons_prefix_cons.mp hq
      exact h.1 ⟨w, rfl⟩

/-- Behind a text that completes `pat`, the search stops at its end. -/
theorem after_of_completes {pat h : List α} (hpat : pat ≠ []) (hc : Completes pat h)
    (b : List α) : after pat (h ++ b) = some b := by
  suffices hs : after pat h = some [] by simpa using after_append hs b
  obtain ⟨⟨pre, rfl⟩, hno⟩ := hc
  rw [after, Option.map_eq_some_iff]
  refine ⟨pat, ?_, by simp⟩
  induction pre with
  | nil =>
    cases pat with
    | nil => exact absurd rfl hpat
    | cons p pat => simp [findFirst]
  | cons a pre ih =>
    have hne : pre ++ pat ≠ [] := by simp [hpat]
    rw [List.cons_append, List.dropLast_cons_of_ne_nil hne, List.infix_cons_iff, not_or] at hno
    rw [List.cons_append, findFirst, if_neg, ih hno.2]
    -- a match this early would end before the end of the text
    intro hp
    refine hno.1 (List.prefix_of_prefix_length_le hp
      (List.cons_prefix_cons.mpr ⟨rfl, List.dropLast_prefix _⟩) ?_)
    have hpos : 0 < pat.length := List.length_pos_iff.mpr hpat
    simp only [List.length_cons, List.length_dropLast, List.length_append]
    omega

/-- `after` cuts the text exactly behind the prefix that completes `pat`. -/
theorem after_eq_some_iff {pat : List α} (hpat : pat ≠ []) (s b : List α) :
    after pat s = some b ↔ ∃ h, s = h ++ b ∧ Completes pat h := by
  constructor
  · intro hs
    induction s with
    | nil => simp [after, findFirst, hpat] at hs
    | cons a s ih =>
      by_cases hp : pat <+: a :: s
      · -- the match is at the front, and too long for `pat.dropLast`
        obtain ⟨t, ht⟩ := hp
        have hb : t = b := by simpa [after, findFirst, ← ht] using hs
        refine ⟨pat, by rw [← hb, ht], List.suffix_refl _, fun hin => ?_⟩
        have hpos : 0 < pat.length := List.length_pos_iff.mpr hpat
        have := hin.length_le
        rw [List.length_dropLast] at this
        omega
      · obtain ⟨h, rfl, hsuf, hno⟩ := ih (by simpa [after, findFirst, hp] using hs)
        refine ⟨a :: h, rfl, hsuf.trans (List.suffix_cons a h), ?_⟩
        have hne : h ≠ [] := by
          rintro rfl
          exact hpat (List.suffix_nil.mp hsuf)
        rw [List.dropLast_cons_of_ne_nil hne, List.infix_cons_iff, not_or]
        refine ⟨fun hpre => hp (hpre.trans ?_), hno⟩
        rw [List.cons_prefix_cons]
        exact ⟨rfl, (List.dropLast_prefix h).trans (List.prefix_append h b)⟩
  · rintro ⟨h, rfl, hc⟩
    exact after_of_completes hpat hc b

/-- There is nothing behind a pattern that is not there. -/
theorem after_eq_none_iff (pat s : List α) : after pat s = none ↔ ¬ pat <:+: s := by
  rw [after, Option.map_eq_none_iff, findFirst_eq_none_iff]

/-! ### Reading a stream chunk by chunk -/

/-- Append chunks to `acc` until `pat` occurs: the text read by then and the chunks left. -/
def upTo (pat : List α) (acc : List α) : List (List α) → Option (List α × List (List α))
  | [] => none
  | c :: cs => if pat <:+: acc ++ c then some (acc ++ c, cs) else upTo pat (acc ++ c) cs

/-- The chunks never hold the pattern. -/
theorem upTo_eq_none_iff (pat acc : List α) (cs : List (List α)) (hacc : ¬ pat <:+: acc) :
    upTo pat acc cs = none ↔ ¬ pat <:+: acc ++ cs.flatten := by
  induction cs generalizing acc with
  | nil => simpa [upTo] using hacc
  | cons c cs ih =>
    rw [upTo, List.flatten_cons, ← List.append_assoc]
    by_cases hc : pat <:+: acc ++ c
    · simp only [hc, if_true, reduceCtorEq, false_iff, not_not]
      exact hc.trans (List.prefix_append _ _).isInfix
    · rw [if_neg hc, ih _ hc]

/-- What `upTo` stops at: the chunks read are the shortest run that contains `pat`. -/
theorem upTo_eq_some {pat acc h : List α} {cs rest : List (List α)}
    (hu : upTo pat acc cs = some (h, rest)) :
    ∃ used c, cs = used ++ c :: rest ∧ h = acc ++ used.flatten ++ c ∧ pat <:+: h ∧
      (used = [] ∨ ¬ pat <:+: acc ++ used.flatten) := by
  induction cs generalizing acc with
  | nil => cases hu
  | cons c cs ih =>
    rw [upTo] at hu
    split at hu
    · rename_i hc
      cases hu
      exact ⟨[], c, rfl, by simp, hc, Or.inl rfl⟩
    · rename_i hc
      obtain ⟨used, c', rfl, rfl, hin, hused⟩ := ih hu
      refine ⟨c :: used, c', rfl, by simp, hin, Or.inr ?_⟩
      rcases hused with rfl | hused
      · simpa using hc
      · simpa using hused

/-- The reader stops no later than with the chunks of a run that contains `pat`. -/
theorem prefix_of_upTo {pat acc h : List α} {pre post rest : List (List α)}
    (hacc : ¬ pat <:+: acc) (hin : pat <:+: acc ++ pre.flatten)
    (hu : upTo pat acc (pre ++ post) = some (h, rest)) : h <+: acc ++ pre.flatten := by
  induction pre generalizing acc with
  | nil => exact absurd (by simpa using hin) hacc
  | cons c pre ih =>
    rw [List.cons_append, upTo] at hu
    rw [List.flatten_cons, ← List.append_assoc] at hin ⊢
    by_cases hc : pat <:+: acc ++ c
    · rw [if_pos hc] at hu
      cases hu
      exact List.prefix_append _ _
    · rw [if_neg hc] at hu
      exact ih hc hin hu

/-- What is taken and what is left are all of it. -/
theorem upTo_flatten {pat acc h : List α} {cs rest : List (List α)}
    (hu : upTo pat acc cs = some (h, rest)) : h ++ rest.flatten = acc ++ cs.flatten := by
  obtain ⟨used, c, rfl, rfl, -, -⟩ := upTo_eq_some hu
  simp

/-- What follows the pattern in the text read, with the chunks left, is what follows it in
    the whole stream: where the chunks were cut does not matter. -/
theorem after_upTo {pat acc h : List α} {cs rest : List (List α)}
    (hu : upTo pat acc cs = some (h, rest)) :
    ∃ b, after pat h = some b ∧ after pat (acc ++ cs.flatten) = some (b ++ rest.flatten) := by
  obtain ⟨used, c, -, -, hin, -⟩ := upTo_eq_some hu
  cases hb : after pat h with
  | none => exact absurd hin ((after_eq_none_iff pat h).mp hb)
  | some b => exact ⟨b, rfl, by rw [← upTo_flatten hu, after_append hb]⟩

end SimpleHttp.Lib
