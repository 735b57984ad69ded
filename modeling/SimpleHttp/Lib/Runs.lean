import Mathlib.Data.List.Induction

namespace SimpleHttp.Lib

/-!
# Library — runs of a machine that may stop with an error

`run step s inputs` feeds a list of inputs to a step function, up to the first error.

* `run_append_eq_ok_iff`, `run_eq_error_iff` — a run, taken apart.
* `run_invariant` — what every step preserves holds behind every run.
* `run_total`, `run_zipIdx` — a run whose steps are defined is defined.
* `AlongRun` — a property of every state that a run passes and the input taken there.
* `Matched`, `run_matched`, `run_forward` — two machines side by side.
* `Justified` — every entry of a log is related to the log before it.
-/

variable {σ ι υ : Type} {step : σ → ι → Except υ σ}

/-- The state behind the inputs, or the first error. -/
def run (step : σ → ι → Except υ σ) (s : σ) (inputs : List ι) : Except υ σ :=
  inputs.foldlM step s

/-- Something holds of every state the run passes and the input it takes there. -/
def AlongRun (step : σ → ι → Except υ σ) (s : σ) (inputs : List ι) (P : σ → ι → Prop) : Prop :=
  ∀ pre x post m, inputs = pre ++ x :: post → run step s pre = .ok m → P m x

@[simp] theorem run_nil (s : σ) : run step s [] = .ok s := rfl

/-- A first step that is defined. -/
theorem run_cons_of_ok {s m : σ} {x : ι} (h : step s x = .ok m) (xs : List ι) :
    run step s (x :: xs) = run step m xs := by
  rw [run, List.foldlM_cons, h]
  rfl

/-- A first step that is not. -/
theorem run_cons_of_error {s : σ} {x : ι} {u : υ} (h : step s x = .error u) (xs : List ι) :
    run step s (x :: xs) = .error u := by
  rw [run, List.foldlM_cons, h]
  rfl

/-- A run is a step and a run. -/
theorem run_cons_eq_ok_iff {s t : σ} {x : ι} {xs : List ι} :
    run step s (x :: xs) = .ok t ↔ ∃ m, step s x = .ok m ∧ run step m xs = .ok t := by
  cases h : step s x with
  | ok m =>
    rw [run_cons_of_ok h]
    constructor
    · exact fun ht => ⟨m, rfl, ht⟩
    · rintro ⟨_, ⟨⟩, ht⟩
      exact ht
  | error u =>
    rw [run_cons_of_error h]
    constructor
    · rintro ⟨⟩
    · rintro ⟨_, ⟨⟩, _⟩

/-- Two runs, one behind the other. -/
theorem run_append_eq_ok_iff {s t : σ} {xs ys : List ι} :
    run step s (xs ++ ys) = .ok t ↔ ∃ m, run step s xs = .ok m ∧ run step m ys = .ok t := by
  induction xs generalizing s with
  | nil => simp
  | cons x xs ih =>
    simp only [List.cons_append, run_cons_eq_ok_iff, ih]
    exact ⟨fun ⟨m, hm, p, hp, ht⟩ => ⟨p, ⟨m, hm, hp⟩, ht⟩,
      fun ⟨p, ⟨m, hm, hp⟩, ht⟩ => ⟨m, hm, p, hp, ht⟩⟩

/-- A run and a last step. -/
theorem run_concat_of_ok {s m : σ} {xs : List ι} (h : run step s xs = .ok m) (x : ι) :
    run step s (xs ++ [x]) = step m x := by
  rw [run] at h
  rw [run, List.foldlM_append, h]
  show run step m [x] = _
  cases hx : step m x with
  | ok t => rw [run_cons_of_ok hx, run_nil]
  | error u => rw [run_cons_of_error hx]

/-- A run stops with an error where a step does. -/
theorem run_eq_error_iff {s : σ} {u : υ} {xs : List ι} :
    run step s xs = .error u ↔
      ∃ pre x post m, xs = pre ++ x :: post ∧ run step s pre = .ok m ∧ step m x = .error u := by
  induction xs generalizing s with
  | nil => simp
  | cons x xs ih =>
    cases h : step s x with
    | error v =>
      -- the run stops at once
      rw [run_cons_of_error h]
      constructor
      · rintro ⟨⟩
        exact ⟨[], x, xs, s, rfl, rfl, h⟩
      · rintro ⟨pre, y, post, m, heq, hpre, hy⟩
        cases pre with
        | nil => cases heq; cases hpre; rw [← h, hy]
        | cons z pre => cases heq; rw [run_cons_of_error h] at hpre; cases hpre
    | ok t =>
      rw [run_cons_of_ok h, ih]
      constructor
      · rintro ⟨pre, y, post, m, rfl, hpre, hy⟩
        exact ⟨x :: pre, y, post, m, rfl, by rw [run_cons_of_ok h, hpre], hy⟩
      · rintro ⟨pre, y, post, m, heq, hpre, hy⟩
        cases pre with
        | nil => cases heq; cases hpre; rw [h] at hy; cases hy
        | cons z pre =>
          cases heq
          exact ⟨pre, y, post, m, rfl, by rw [run_cons_of_ok h] at hpre; exact hpre, hy⟩

/-- **Invariant rule.** -/
theorem run_invariant {P : σ → Prop} {s t : σ} {xs : List ι}
    (hstep : ∀ m x m', P m → step m x = .ok m' → P m') (hs : P s) (hrun : run step s xs = .ok t) :
    P t := by
  induction xs generalizing s with
  | nil => cases hrun; exact hs
  | cons x xs ih =>
    obtain ⟨m, hm, ht⟩ := run_cons_eq_ok_iff.mp hrun
    exact ih (hstep s x m hs hm) ht

/-- **Totality rule.** -/
theorem run_total {P : σ → Prop} {s : σ} {xs : List ι}
    (hstep : ∀ m, ∀ x ∈ xs, P m → ∃ m', step m x = .ok m' ∧ P m') (hs : P s) :
    ∃ t, run step s xs = .ok t ∧ P t := by
  induction xs generalizing s with
  | nil => exact ⟨s, rfl, hs⟩
  | cons x xs ih =>
    obtain ⟨m, hm, hP⟩ := hstep s x List.mem_cons_self hs
    rw [run_cons_of_ok hm]
    exact ih (fun m y hy => hstep m y (List.mem_cons_of_mem _ hy)) hP

/-- **Totality rule**, for numbered inputs; `P` is about those that the run has taken. -/
theorem run_zipIdx {α : Type} {step : σ → α × Nat → Except υ σ} {P : List α → σ → Prop} {s : σ}
    (first : Nat) (xs : List α)
    (hstep : ∀ done x m, done.length < xs.length → P done m →
      ∃ m', step m (x, first + done.length) = .ok m' ∧ P (done ++ [x]) m')
    (hs : P [] s) : ∃ t, run step s (xs.zipIdx first) = .ok t ∧ P xs t := by
  have hprefix : ∀ done : List α, done.length ≤ xs.length →
      ∃ t, run step s (done.zipIdx first) = .ok t ∧ P done t := by
    intro done
    induction done using List.reverseRecOn with
    | nil => exact fun _ => ⟨s, rfl, hs⟩
    | append_singleton done x ih =>
      intro hlength
      rw [List.length_append, List.length_singleton] at hlength
      obtain ⟨m, hm, hP⟩ := ih (Nat.le_of_succ_le hlength)
      obtain ⟨m', hm', hP'⟩ := hstep done x m hlength hP
      refine ⟨m', ?_, hP'⟩
      rw [List.zipIdx_append, List.zipIdx_singleton, run_concat_of_ok hm, hm']
  apply hprefix
  omega

/-- Properties that agree wherever a run comes hold along it together. -/
theorem alongRun_congr {s : σ} {xs : List ι} {P Q : σ → ι → Prop}
    (h : ∀ pre x post m, xs = pre ++ x :: post → run step s pre = .ok m → (P m x ↔ Q m x)) :
    AlongRun step s xs P ↔ AlongRun step s xs Q :=
  ⟨fun hP pre x post m heq hm => (h pre x post m heq hm).mp (hP pre x post m heq hm),
    fun hQ pre x post m heq hm => (h pre x post m heq hm).mpr (hQ pre x post m heq hm)⟩

/-- A defined run is defined up to each of its states, and in the step from there. -/
theorem run_split {s t : σ} {pre post : List ι} {x : ι}
    (h : run step s (pre ++ x :: post) = .ok t) :
    ∃ m m', run step s pre = .ok m ∧ step m x = .ok m' ∧ run step m' post = .ok t := by
  obtain ⟨m, hm, hrest⟩ := run_append_eq_ok_iff.mp h
  obtain ⟨m', hm', ht⟩ := run_cons_eq_ok_iff.mp hrest
  exact ⟨m, m', hm, hm', ht⟩

/-- What is said of a mapped result was so before. -/
theorem exists_of_map_eq_ok {β : Type} {f : σ → β} {x : Except υ σ} {b : β}
    (h : x.map f = .ok b) : ∃ s, x = .ok s ∧ f s = b := by
  cases x with
  | error u => cases h
  | ok s => exact ⟨s, rfl, Except.ok.inj h⟩

/-! ### Two machines side by side -/

section Matched

variable {τ α : Type} {R : σ → τ → Prop} {exec : σ → ι → Except υ (σ × α)}
  {exec' : τ → ι → Except υ (τ × α)}

/-- Two computations end with the same value in related states, or with the same error. -/
def Matched (R : σ → τ → Prop) : Except υ (σ × α) → Except υ (τ × α) → Prop
  | .ok (s, a), .ok (t, b) => R s t ∧ a = b
  | .error e, .error f => e = f
  | _, _ => False

/-- The right side is defined, so the left one is. -/
theorem Matched.of_ok {x : Except υ (σ × α)} {t : τ} {a : α} (h : Matched R x (.ok (t, a))) :
    ∃ s, x = .ok (s, a) ∧ R s t := by
  match x, h with
  | .ok (s, _), ⟨hR, rfl⟩ => exact ⟨s, rfl, hR⟩

/-- The left side is defined, so the right one is. -/
theorem Matched.of_ok_left {s : σ} {a : α} {y : Except υ (τ × α)} (h : Matched R (.ok (s, a)) y) :
    ∃ t, y = .ok (t, a) ∧ R s t := by
  match y, h with
  | .ok (t, _), ⟨hR, rfl⟩ => exact ⟨t, rfl, hR⟩

/-- Of matched results, both are errors or neither is. -/
theorem Matched.of_error {x : Except υ (σ × α)} {y : Except υ (τ × α)} (h : Matched R x y) {e : υ} :
    x = .error e ↔ y = .error e := by
  match x, y, h with
  | .ok _, .ok _, _ => exact ⟨nofun, nofun⟩
  | .error _, .error _, rfl =>
    constructor <;> rintro ⟨⟩ <;> rfl

/-- A change of the answers keeps results matched. -/
theorem Matched.map {β : Type} {x : Except υ (σ × α)} {y : Except υ (τ × α)} (h : Matched R x y)
    (f : α → β) : Matched R (x.map (Prod.map id f)) (y.map (Prod.map id f)) := by
  match x, y, h with
  | .ok (s, a), .ok (t, _), ⟨hR, rfl⟩ => exact ⟨hR, rfl⟩
  | .error _, .error _, h => exact h

/-- Results matched by way of a third are matched. -/
theorem Matched.comp {ρ : Type} {S : τ → ρ → Prop} {T : σ → ρ → Prop} {x : Except υ (σ × α)}
    {y : Except υ (τ × α)} {z : Except υ (ρ × α)} (h : Matched R x y) (h' : Matched S y z)
    (hRS : ∀ s t r, R s t → S t r → T s r) : Matched T x z := by
  match x, y, z, h, h' with
  | .ok (_, _), .ok (_, _), .ok (_, _), ⟨hR, rfl⟩, ⟨hS, rfl⟩ => exact ⟨hRS _ _ _ hR hS, rfl⟩
  | .error _, .error _, .error _, rfl, rfl => exact rfl

/-- The inputs one after the other, each recorded with what it returns. -/
def logged (exec : σ → ι → Except υ (σ × α)) (s : σ × List (ι × α)) (x : ι) :
    Except υ (σ × List (ι × α)) :=
  (exec s.1 x).map fun r => (r.1, s.2 ++ [(x, r.2)])

/-- A call and its answer go into the log. -/
theorem logged_of_ok {s m : σ} {x : ι} {a : α} (h : exec s x = .ok (m, a)) (log : List (ι × α)) :
    logged exec (s, log) x = .ok (m, log ++ [(x, a)]) := by
  rw [logged, h]
  rfl

theorem logged_of_error {s : σ} {x : ι} {e : υ} (h : exec s x = .error e) (log : List (ι × α)) :
    logged exec (s, log) x = .error e := by
  rw [logged, h]
  rfl

/-- The record has every input. -/
theorem run_logged_inputs {s t : σ} {log log' : List (ι × α)} {xs : List ι}
    (h : run (logged exec) (s, log) xs = .ok (t, log')) :
    log'.map Prod.fst = log.map Prod.fst ++ xs := by
  induction xs generalizing s log with
  | nil =>
    cases h
    exact (List.append_nil _).symm
  | cons x xs ih =>
    cases hx : exec s x with
    | error e =>
      rw [run_cons_of_error (logged_of_error hx log)] at h
      cases h
    | ok r =>
      rw [run_cons_of_ok (logged_of_ok hx log)] at h
      rw [ih h, List.map_append, List.append_assoc]
      rfl

/-- What is in the log has been called. -/
theorem mem_inputs_of_logged {s t : σ} {log : List (ι × α)} {xs : List ι}
    (h : run (logged exec) (s, []) xs = .ok (t, log)) {e : ι × α} (he : e ∈ log) : e.1 ∈ xs := by
  have hinputs := run_logged_inputs h
  rw [List.map_nil, List.nil_append] at hinputs
  rw [← hinputs]
  exact List.mem_map_of_mem he

/-- **Simulation rule.** -/
theorem run_matched (hstep : ∀ s t x, R s t → Matched R (exec s x) (exec' t x)) {s : σ} {t : τ}
    (h : R s t) (log : List (ι × α)) (xs : List ι) :
    Matched R (run (logged exec) (s, log) xs) (run (logged exec') (t, log) xs) := by
  induction xs generalizing s t log with
  | nil => exact ⟨h, rfl⟩
  | cons x xs ih =>
    have hx := hstep s t x h
    cases ht : exec' t x with
    | error e =>
      rw [ht] at hx
      have hs := hx.of_error.mpr rfl
      rw [run_cons_of_error (logged_of_error hs log), run_cons_of_error (logged_of_error ht log)]
      exact rfl
    | ok r =>
      rw [ht] at hx
      obtain ⟨m, hs, hR⟩ := hx.of_ok
      rw [run_cons_of_ok (logged_of_ok hs log), run_cons_of_ok (logged_of_ok ht log)]
      exact ih hR _

/-- **Forward simulation.**  What the second machine does, the first one does. -/
theorem run_forward {ω : Type} {exec' : τ → ι → Except ω (τ × α)}
    (hstep : ∀ s t x t' a, R s t → exec' t x = .ok (t', a) → ∃ s', exec s x = .ok (s', a) ∧ R s' t')
    {s : σ} {t t' : τ} (h : R s t) {log log' : List (ι × α)} {xs : List ι}
    (hrun : run (logged exec') (t, log) xs = .ok (t', log')) :
    ∃ s', run (logged exec) (s, log) xs = .ok (s', log') ∧ R s' t' := by
  induction xs generalizing s t log with
  | nil =>
    cases hrun
    exact ⟨s, rfl, h⟩
  | cons x xs ih =>
    cases ht : exec' t x with
    | error e =>
      rw [run_cons_of_error (logged_of_error ht log)] at hrun
      cases hrun
    | ok r =>
      rw [run_cons_of_ok (logged_of_ok ht log)] at hrun
      obtain ⟨m, hs, hR⟩ := hstep s t x r.1 r.2 h ht
      rw [run_cons_of_ok (logged_of_ok hs log)]
      exact ih hR hrun

end Matched

/-! ### Logs -/

variable {ε : Type}

/-- Every entry of the log is justified by the entries before it. -/
def Justified (R : List ε → ε → Prop) (log : List ε) : Prop :=
  ∀ pre e post, log = pre ++ e :: post → R pre e

/-- The empty log needs no reason. -/
theorem justified_nil (R : List ε → ε → Prop) : Justified R [] := by
  intro pre e post h
  simp at h

/-- One event more, with its reason in the log before it. -/
theorem justified_concat {R : List ε → ε → Prop} {log : List ε} {e : ε} (h : Justified R log)
    (he : R log e) : Justified R (log ++ [e]) := by
  intro pre x post heq
  rcases List.eq_nil_or_concat post with rfl | ⟨post, y, rfl⟩
  · obtain ⟨rfl, hx⟩ := List.append_inj' heq rfl
    obtain rfl : e = x := by simpa using hx
    exact he
  · rw [List.concat_eq_append, ← List.cons_append, ← List.append_assoc] at heq
    exact h pre x post (List.append_inj' heq rfl).1

/-- Entries that need no justification may be added. -/
theorem justified_append {R : List ε → ε → Prop} {log es : List ε} (h : Justified R log)
    (hes : ∀ e ∈ es, ∀ pre, R pre e) : Justified R (log ++ es) := by
  induction es generalizing log with
  | nil => simpa using h
  | cons e es ih =>
    rw [← List.singleton_append, ← List.append_assoc]
    exact ih (justified_concat h (hes e List.mem_cons_self log))
      fun x hx => hes x (List.mem_cons_of_mem _ hx)

end SimpleHttp.Lib
