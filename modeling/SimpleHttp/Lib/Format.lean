import Mathlib.Data.List.DropRight
import Mathlib.Data.Nat.Digits.Defs
import Mathlib.Data.Int.Order.Basic
import Mathlib.Tactic.IntervalCases
import SimpleHttp.Lib.CString

namespace SimpleHttp.Lib

/-!
# Library — `sscanf`, `atoi` and `%d`

`sscanf fmt s` runs a list of scanf directives over a C string and returns the values assigned
before the first directive that fails; the function's return value is their number (it returns
`EOF` for some of the runs that assign nothing, which the model does not tell from `0`).
Directives follow the standard: `%s` and `%d` skip leading white space, `%s` takes the run of
non-space bytes, `%d` an optional sign and decimal digits.  The converted number is what the
C library's `strtol` returns for it, cut to a 32-bit `int`; `atoi` converts in the same way.
-/

/-! ### 32-bit integers and decimal text -/

/-- Conversion of an integer to a 32-bit `int`. -/
def toInt32 (v : Int) : Int := v.bmod (2 ^ 32)

/-- A 64-bit `long` saturates at its bounds in `strtol`. -/
def clampLong (v : Int) : Int := max (-2 ^ 63) (min v (2 ^ 63 - 1))

/-- `isdigit` in the "C" locale. -/
def isdigit (b : UInt8) : Bool := 48 ≤ b && b ≤ 57

/-- The number a run of decimal digits spells. -/
def digitsValue (ds : Bytes) : Nat := ds.foldl (fun n d => 10 * n + (d.toNat - 48)) 0

/-- The number in decimal digits, without leading zeros. -/
def natDecimal (n : Nat) : Bytes :=
  if n = 0 then [48] else (Nat.digits 10 n).reverse.map fun d => UInt8.ofNat (48 + d)

/-- `%d` of printf. -/
def decimal (v : Int) : Bytes :=
  if v < 0 then 45 :: natDecimal v.natAbs else natDecimal v.natAbs

/-- Decimals are made of digits. -/
theorem isdigit_of_mem_natDecimal {n : Nat} {b : UInt8} (h : b ∈ natDecimal n) : isdigit b := by
  unfold natDecimal at h
  split at h
  · rw [List.mem_singleton] at h; subst h; decide
  · obtain ⟨d, hd, rfl⟩ := List.mem_map.mp h
    have hlt : d < 10 := Nat.digits_lt_base (by decide) (List.mem_reverse.mp hd)
    interval_cases d <;> decide

/-- Bytes of a printed number are digits, or the sign. -/
theorem mem_decimal {v : Int} {b : UInt8} (h : b ∈ decimal v) : b = 45 ∨ isdigit b := by
  unfold decimal at h
  split at h
  · rcases List.mem_cons.mp h with rfl | h
    · exact Or.inl rfl
    · exact Or.inr (isdigit_of_mem_natDecimal h)
  · exact Or.inr (isdigit_of_mem_natDecimal h)

/-- A byte that is neither a digit nor the sign does not occur in a printed number. -/
theorem not_mem_decimal (v : Int) {b : UInt8} (hs : b ≠ 45) (hd : isdigit b = false) :
    b ∉ decimal v := by
  intro h
  rcases mem_decimal h with rfl | h
  · exact hs rfl
  · rw [hd] at h; cases h

/-- The digits of a number spell it. -/
theorem digitsValue_natDecimal (n : Nat) : digitsValue (natDecimal n) = n := by
  have hfold : ∀ L : List Nat, (∀ d ∈ L, d < 10) →
      digitsValue (L.reverse.map fun d => UInt8.ofNat (48 + d)) = Nat.ofDigits 10 L := by
    intro L hL
    induction L with
    | nil => rfl
    | cons d L ih =>
      have hd : d < 10 := hL d List.mem_cons_self
      have hbyte : (UInt8.ofNat (48 + d)).toNat - 48 = d := by
        rw [UInt8.toNat_ofNat_of_lt' (by show 48 + d < 256; omega)]
        omega
      rw [Nat.ofDigits_cons, ← ih fun e he => hL e (List.mem_cons_of_mem _ he)]
      simp only [digitsValue, List.reverse_cons, List.map_append, List.map_cons, List.map_nil,
        List.foldl_append, List.foldl_cons, List.foldl_nil, hbyte]
      exact Nat.add_comm _ _
  unfold natDecimal
  split
  · rename_i h
    rw [h]
    rfl
  · rw [hfold _ fun d hd => Nat.digits_lt_base (by decide) hd, Nat.ofDigits_digits]

/-- Different numbers are printed differently. -/
theorem decimal_injective {v w : Int} (h : decimal v = decimal w) : v = w := by
  have hminus : ∀ n, 45 ∉ natDecimal n := fun n hm =>
    absurd (isdigit_of_mem_natDecimal hm) (by decide)
  have hnat : ∀ {m n : Nat}, natDecimal m = natDecimal n → m = n := by
    intro m n hmn
    rw [← digitsValue_natDecimal m, hmn, digitsValue_natDecimal]
  unfold decimal at h
  split at h
  · split at h
    · have := hnat (List.cons.inj h).2
      omega
    · exact absurd (h ▸ List.mem_cons_self) (hminus _)
  · split at h
    · exact absurd (h ▸ List.mem_cons_self) (hminus _)
    · have := hnat h
      omega

/-! ### Directives -/

/-- One directive of a scanf format. -/
inductive Directive where
  | lit (c : UInt8)   -- an ordinary character
  | space             -- white space in the format
  | str               -- `%s`
  | skipStr           -- `%*s`
  | int               -- `%d`
  deriving DecidableEq, Repr

/-- A value that a directive assigns. -/
inductive Scanned where
  | str (s : Bytes)
  | int (v : Int)
  deriving DecidableEq, Repr

/-- Past the white space. -/
def skipSpace (s : Bytes) : Bytes := s.dropWhile isspace

/-- The run of non-space bytes at the start. -/
def token (s : Bytes) : Bytes := s.takeWhile fun b => !isspace b

/-- An optional sign: whether it is a minus, and what follows it. -/
def takeSign : Bytes → Bool × Bytes
  | 45 :: t => (true, t)
  | 43 :: t => (false, t)
  | t => (false, t)

/-- The value of `%d` and what follows it: an optional sign, then decimal digits. -/
def scanInt (s : Bytes) : Option (Int × Bytes) :=
  let t := (takeSign s).2
  let ds := t.takeWhile isdigit
  if ds = [] then none
  else
    let v : Int := if (takeSign s).1 then -(digitsValue ds : Int) else digitsValue ds
    some (toInt32 (clampLong v), t.drop ds.length)

/-- What is behind the sign was there before. -/
theorem takeSign_subset (s : Bytes) : (takeSign s).2 ⊆ s := by
  unfold takeSign
  split <;> simp

/-- What is behind the number was there before. -/
theorem scanInt_subset {s t : Bytes} {v : Int} (h : scanInt s = some (v, t)) : t ⊆ s := by
  simp only [scanInt] at h
  split at h
  · cases h
  · cases h
    exact fun b hb => takeSign_subset s ((List.drop_suffix _ _).subset hb)

/-- The values that `sscanf(s, fmt, ...)` assigns. -/
def sscanf : List Directive → Bytes → List Scanned
  | [], _ => []
  | .lit c :: ds, s =>
      match s with
      | b :: t => if b = c then sscanf ds t else []
      | [] => []
  | .space :: ds, s => sscanf ds (skipSpace s)
  | .str :: ds, s =>
      let t := skipSpace s
      if token t = [] then [] else .str (token t) :: sscanf ds (t.drop (token t).length)
  | .skipStr :: ds, s =>
      let t := skipSpace s
      if token t = [] then [] else sscanf ds (t.drop (token t).length)
  | .int :: ds, s =>
      match scanInt (skipSpace s) with
      | some (v, t) => .int v :: sscanf ds t
      | none => []

/-! ### Runs of bytes of one kind -/

/-- A run that ends where the text stops satisfying `p` is what is taken and dropped. -/
theorem takeWhile_dropWhile_run {p : UInt8 → Bool} {a b : Bytes} (ha : ∀ x ∈ a, p x = true)
    (hb : ∀ x ∈ b.head?, p x = false) :
    (a ++ b).takeWhile p = a ∧ (a ++ b).dropWhile p = b := by
  rw [List.takeWhile_append_of_pos ha, List.dropWhile_append_of_pos ha]
  cases b with
  | nil => simp
  | cons x b => simp [hb x rfl]

/-- There is one way to cut a text behind such a run. -/
theorem run_unique {p : UInt8 → Bool} {a b a' b' : Bytes} (ha : ∀ x ∈ a, p x = true)
    (hb : ∀ x ∈ b.head?, p x = false) (ha' : ∀ x ∈ a', p x = true)
    (hb' : ∀ x ∈ b'.head?, p x = false) (h : a ++ b = a' ++ b') : a = a' ∧ b = b' := by
  obtain ⟨htake, hdrop⟩ := takeWhile_dropWhile_run ha hb
  obtain ⟨htake', hdrop'⟩ := takeWhile_dropWhile_run ha' hb'
  exact ⟨by rw [← htake, h, htake'], by rw [← hdrop, h, hdrop']⟩

/-- A text starts as its first part does. -/
theorem head_append {P : UInt8 → Prop} {a : Bytes} (hne : a ≠ []) (ha : ∀ x ∈ a, P x) (b : Bytes) :
    ∀ x ∈ (a ++ b).head?, P x := by
  cases a with
  | nil => exact absurd rfl hne
  | cons c a =>
    rintro x hx
    obtain rfl : c = x := by simpa using hx
    exact ha c List.mem_cons_self

/-- The text behind the run is over or starts with a byte of another kind. -/
theorem head_dropWhile {p : UInt8 → Bool} (s : Bytes) :
    ∀ b ∈ (s.dropWhile p).head?, p b = false := by
  intro b hb
  have hhead := List.head?_dropWhile_not p s
  rw [Option.mem_def.mp hb] at hhead
  simpa using hhead

/-! ### Tokens -/

/-- A non-empty word without white space. -/
def IsWord (w : Bytes) : Prop := w ≠ [] ∧ ∀ b ∈ w, isspace b = false

/-- The text is over or goes on with white space. -/
def EndsWord (s : Bytes) : Prop := ∀ b ∈ s.head?, isspace b = true

/-- A word has no white space in front. -/
theorem skipSpace_of_word {w : Bytes} (hw : IsWord w) (s : Bytes) :
    skipSpace (w ++ s) = w ++ s := by
  obtain ⟨hne, hsp⟩ := hw
  cases w with
  | nil => exact absurd rfl hne
  | cons b w => simp [skipSpace, hsp b (by simp)]

theorem skipSpace_skipSpace (s : Bytes) : skipSpace (skipSpace s) = skipSpace s :=
  List.dropWhile_idempotent _ _

/-- White space in front of the text is skipped. -/
theorem skipSpace_append {g : Bytes} (hg : ∀ b ∈ g, isspace b = true) (s : Bytes) :
    skipSpace (g ++ s) = skipSpace s := by
  induction g with
  | nil => rfl
  | cons b g ih =>
    have hb : isspace b = true := hg b (by simp)
    simp only [List.cons_append, skipSpace, List.dropWhile_cons, hb, if_true]
    exact ih fun c hc => hg c (by simp [hc])

/-- The token of a text that begins with a word is that word. -/
theorem token_append {w s : Bytes} (hw : ∀ b ∈ w, isspace b = false) (hs : EndsWord s) :
    token (w ++ s) = w :=
  (takeWhile_dropWhile_run (fun b hb => by simpa using hw b hb)
    fun b hb => by simpa using hs b hb).1

/-- A token is a word. -/
theorem isWord_token {s : Bytes} (h : token s ≠ []) : IsWord (token s) :=
  ⟨h, fun b hb => by simpa using List.mem_takeWhile_imp hb⟩

/-- What follows the token of a text ends the token. -/
theorem token_append_drop (s : Bytes) :
    token s ++ s.drop (token s).length = s ∧ EndsWord (s.drop (token s).length) := by
  have hsplit : token s ++ s.dropWhile (fun b => !isspace b) = s :=
    List.takeWhile_append_dropWhile
  have hdrop : (token s ++ s.dropWhile (fun b => !isspace b)).drop (token s).length =
      s.dropWhile fun b => !isspace b := List.drop_left
  rw [hsplit] at hdrop
  rw [hdrop]
  exact ⟨hsplit, fun b hb => by simpa using head_dropWhile s b hb⟩

/-- A token is made of bytes of the text. -/
theorem token_subset (s : Bytes) : token (skipSpace s) ⊆ s := fun _ hb =>
  (List.dropWhile_suffix _).subset ((List.takeWhile_prefix _).subset hb)

/-- The strings that `%s` assigns are words of the text. -/
theorem isWord_of_mem_sscanf {fmt : List Directive} {s w : Bytes}
    (h : Scanned.str w ∈ sscanf fmt s) : IsWord w ∧ w ⊆ s := by
  fun_induction sscanf fmt s with
  | case1 => simp at h
  | case2 ds c t ih => exact ⟨(ih h).1, fun b hb => List.mem_cons_of_mem _ ((ih h).2 hb)⟩
  | case3 => simp at h
  | case4 => simp at h
  | case5 ds s ih =>
    exact ⟨(ih h).1, fun b hb => (List.dropWhile_suffix _).subset ((ih h).2 hb)⟩
  | case6 => simp at h
  | case7 ds s t ht ih =>
    rcases List.mem_cons.mp h with heq | h
    · obtain rfl : w = token t := by simpa using heq
      exact ⟨isWord_token ht, token_subset s⟩
    · refine ⟨(ih h).1, fun b hb => ?_⟩
      exact (List.dropWhile_suffix _).subset ((List.drop_suffix _ _).subset ((ih h).2 hb))
  | case8 => simp at h
  | case9 ds s t ht ih =>
    refine ⟨(ih h).1, fun b hb => ?_⟩
    exact (List.dropWhile_suffix _).subset ((List.drop_suffix _ _).subset ((ih h).2 hb))
  | case10 ds s v t hv ih =>
    rcases List.mem_cons.mp h with heq | h
    · cases heq
    · refine ⟨(ih h).1, fun b hb => ?_⟩
      exact (List.dropWhile_suffix _).subset (scanInt_subset hv ((ih h).2 hb))
  | case11 => simp at h

/-- `%s` reads one word and leaves what follows it. -/
theorem sscanf_str {w s : Bytes} (hw : IsWord w) (hs : EndsWord s) (ds : List Directive) :
    sscanf (.str :: ds) (w ++ s) = .str w :: sscanf ds s := by
  simp only [sscanf]
  rw [skipSpace_of_word hw, token_append hw.2 hs, if_neg hw.1, List.drop_left]

/-- `%*s` in front of a word passes over it. -/
theorem sscanf_skipStr {w s : Bytes} (hw : IsWord w) (hs : EndsWord s) (ds : List Directive) :
    sscanf (.skipStr :: ds) (w ++ s) = sscanf ds s := by
  simp only [sscanf]
  rw [skipSpace_of_word hw, token_append hw.2 hs, if_neg hw.1, List.drop_left]

/-- Ordinary characters match themselves. -/
theorem sscanf_lits (w : Bytes) (ds : List Directive) (s : Bytes) :
    sscanf (w.map .lit ++ ds) s = if w <+: s then sscanf ds (s.drop w.length) else [] := by
  induction w generalizing s with
  | nil => simp
  | cons c w ih =>
    cases s with
    | nil => simp [sscanf]
    | cons b s =>
      rw [List.map_cons, List.cons_append, sscanf]
      by_cases hb : b = c
      · subst hb
        rw [if_pos rfl, ih]
        simp
      · have hno : ¬ c :: w <+: b :: s := fun h => hb (List.cons_prefix_cons.mp h).1.symm
        rw [if_neg hb, if_neg hno]

/-- Words are read from behind white space. -/
theorem sscanf_space_append {g : Bytes} (hg : ∀ b ∈ g, isspace b = true) (s : Bytes)
    (ds : List Directive) : sscanf (.space :: ds) (g ++ s) = sscanf (.space :: ds) s := by
  simp only [sscanf, skipSpace_append hg]

/-! ### Numbers -/

/-- A digit is neither white space nor a sign. -/
theorem isdigit_spec {d : UInt8} (h : isdigit d = true) :
    isspace d = false ∧ d ≠ 45 ∧ d ≠ 43 ∧ d ≠ 0 := by
  simp only [isdigit, Bool.and_eq_true, decide_eq_true_eq, UInt8.le_iff_toNat_le] at h
  obtain ⟨hlo, hhi⟩ := h
  change 48 ≤ d.toNat at hlo
  change d.toNat ≤ 57 at hhi
  refine ⟨?_, ?_, ?_, ?_⟩
  · simp only [isspace, Bool.or_eq_false_iff, Bool.and_eq_false_iff, decide_eq_false_iff_not,
      UInt8.le_iff_toNat_le, ← UInt8.toNat_inj]
    show ¬ d.toNat = 32 ∧ (¬ 9 ≤ d.toNat ∨ ¬ d.toNat ≤ 13)
    omega
  all_goals (rintro rfl; revert hlo; decide)

/-- A digit is no sign. -/
theorem takeSign_of_isdigit {d : UInt8} (h : isdigit d = true) (s : Bytes) :
    takeSign (d :: s) = (false, d :: s) := by
  obtain ⟨-, hminus, hplus, -⟩ := isdigit_spec h
  unfold takeSign
  split
  · rename_i heq; cases heq; exact absurd rfl hminus
  · rename_i heq; cases heq; exact absurd rfl hplus
  · rfl

/-- An optional sign. -/
def IsSign (s : Bytes) : Prop := s = [] ∨ s = [43] ∨ s = [45]

/-- The number that a sign and digits spell. -/
def signedValue (sign digits : Bytes) : Int :=
  if sign = [45] then -(digitsValue digits : Int) else digitsValue digits

/-- What `%d` makes of a sign and a run of digits. -/
theorem scanInt_append {sign digits t : Bytes} (hsign : IsSign sign) (hne : digits ≠ [])
    (hdig : ∀ b ∈ digits, isdigit b = true) (ht : ∀ b ∈ t.head?, isdigit b = false) :
    scanInt (sign ++ (digits ++ t)) =
      some (toInt32 (clampLong (signedValue sign digits)), t) := by
  obtain ⟨htake, -⟩ := takeWhile_dropWhile_run hdig ht
  rcases hsign with rfl | rfl | rfl
  · have hfirst : takeSign (digits ++ t) = (false, digits ++ t) := by
      cases digits with
      | nil => exact absurd rfl hne
      | cons d digits => exact takeSign_of_isdigit (hdig d List.mem_cons_self) _
    simp [scanInt, hfirst, htake, hne, signedValue]
  · have hfirst : takeSign ([43] ++ (digits ++ t)) = (false, digits ++ t) := rfl
    simp only [scanInt, hfirst, htake, hne, if_false, List.drop_left]
    simp [signedValue]
  · have hfirst : takeSign ([45] ++ (digits ++ t)) = (true, digits ++ t) := rfl
    simp only [scanInt, hfirst, htake, hne, if_false, List.drop_left]
    simp [signedValue]

/-- Where `%d` finds a number there are a sign and a run of digits. -/
theorem scanInt_ne_none {s : Bytes} (h : scanInt s ≠ none) :
    ∃ sign digits t, s = sign ++ (digits ++ t) ∧ IsSign sign ∧
      digits ≠ [] ∧ (∀ b ∈ digits, isdigit b = true) ∧ ∀ b ∈ t.head?, isdigit b = false := by
  obtain ⟨sign, hs, hsign⟩ : ∃ sign, s = sign ++ (takeSign s).2 ∧ IsSign sign := by
    unfold takeSign
    split
    · exact ⟨[45], rfl, Or.inr (Or.inr rfl)⟩
    · exact ⟨[43], rfl, Or.inr (Or.inl rfl)⟩
    · exact ⟨[], rfl, Or.inl rfl⟩
  refine ⟨sign, (takeSign s).2.takeWhile isdigit, (takeSign s).2.dropWhile isdigit, ?_, hsign, ?_,
    fun b hb => List.mem_takeWhile_imp hb, head_dropWhile _⟩
  · rw [List.takeWhile_append_dropWhile]
    exact hs
  · intro hnil
    exact h (by simp [scanInt, hnil])

/-- A sign and digits are a word. -/
theorem isWord_number {sign digits : Bytes} (hsign : IsSign sign) (hne : digits ≠ [])
    (hdig : ∀ b ∈ digits, isdigit b = true) : IsWord (sign ++ digits) := by
  refine ⟨by simp [hne], fun b hb => ?_⟩
  rcases List.mem_append.mp hb with hb | hb
  · rcases hsign with rfl | rfl | rfl
    · exact absurd hb List.not_mem_nil
    · obtain rfl := List.mem_singleton.mp hb
      rfl
    · obtain rfl := List.mem_singleton.mp hb
      rfl
  · exact (isdigit_spec (hdig b hb)).1

/-- `%d` on a run of digits. -/
theorem sscanf_int {n s : Bytes} (hn : n ≠ []) (hdig : ∀ b ∈ n, isdigit b = true)
    (hs : ∀ b ∈ s.head?, isdigit b = false) (ds : List Directive) :
    sscanf (.int :: ds) (n ++ s) = .int (toInt32 (clampLong (digitsValue n))) :: sscanf ds s := by
  have hscan : scanInt (n ++ s) = some (toInt32 (clampLong (signedValue [] n)), s) :=
    scanInt_append (Or.inl rfl) hn hdig hs
  have hskip : skipSpace (n ++ s) = n ++ s :=
    skipSpace_of_word (isWord_number (Or.inl rfl) hn hdig) s
  rw [sscanf, hskip, hscan]
  rfl

/-! ### `atoi` -/

/-- `atoi`. -/
def atoi (s : Bytes) : Int :=
  match scanInt (skipSpace (cstr s)) with
  | some (v, _) => v
  | none => 0

/-- The result is an `int`. -/
theorem toInt32_range (v : Int) : -2 ^ 31 ≤ toInt32 v ∧ toInt32 v < 2 ^ 31 := by
  have hpos : (0 : Nat) < 2 ^ 32 := by omega
  have hle := Int.le_bmod (x := v) hpos
  have hlt := Int.bmod_lt (x := v) hpos
  unfold toInt32
  omega

/-- `atoi` gives an `int`. -/
theorem atoi_range (s : Bytes) : -2 ^ 31 ≤ atoi s ∧ atoi s < 2 ^ 31 := by
  unfold atoi scanInt
  dsimp only
  by_cases hdigits : (takeSign (skipSpace (cstr s))).2.takeWhile isdigit = []
  · rw [if_pos hdigits]
    show -2 ^ 31 ≤ (0 : Int) ∧ (0 : Int) < 2 ^ 31
    omega
  · rw [if_neg hdigits]
    exact toInt32_range _

/-- A printed number is read back, as long as it fits into an `int`. -/
theorem atoi_natDecimal {n : Nat} (h : n < 2 ^ 31) : atoi (natDecimal n) = n := by
  have hdigits : ∀ b ∈ natDecimal n, isdigit b = true := fun b hb => isdigit_of_mem_natDecimal hb
  have hne : natDecimal n ≠ [] := by
    unfold natDecimal
    split
    · simp
    · rename_i hn
      simp [Nat.digits_eq_nil_iff_eq_zero, hn]
  have hcstr : cstr (natDecimal n) = natDecimal n :=
    cstr_eq_self fun hz => (isdigit_spec (hdigits 0 hz)).2.2.2 rfl
  have hskip : skipSpace (natDecimal n ++ []) = natDecimal n ++ [] :=
    skipSpace_of_word (isWord_number (Or.inl rfl) hne hdigits) []
  have hscan : scanInt ([] ++ (natDecimal n ++ [])) = _ :=
    scanInt_append (Or.inl rfl) hne hdigits (by simp)
  rw [List.append_nil] at hskip hscan
  rw [atoi, hcstr, hskip]
  rw [List.nil_append] at hscan
  rw [hscan]
  show toInt32 (clampLong (digitsValue (natDecimal n))) = n
  rw [digitsValue_natDecimal, clampLong, toInt32]
  have hclamp : max (-2 ^ 63) (min (n : Int) (2 ^ 63 - 1)) = n := by omega
  rw [hclamp]
  apply Int.bmod_eq_of_le <;> omega

end SimpleHttp.Lib
