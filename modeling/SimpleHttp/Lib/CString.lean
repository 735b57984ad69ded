import Mathlib.Data.List.TakeWhile
import SimpleHttp.Lib.Search

namespace SimpleHttp.Lib

/-!
# Library — bytes, memory blocks and C strings

A memory block is the list of its bytes.  `cstr m` is the C string that starts at the block's
first byte (everything before the first zero byte), `poke m off bs` overwrites `m` from offset
`off`, and `strncpy` is the standard function with its zero padding.
-/

/-- Memory as the programs see it, and the texts in it. -/
abbrev Bytes := List UInt8

/-- The bytes of an ASCII literal. -/
def ascii (s : String) : Bytes := s.toList.map fun c => c.toNat.toUInt8

-- A statement about every byte of a text is decided byte by byte along the text, not by running
-- through the 256 values of the type, which is what is found for `UInt8` otherwise.

/-- A check of all bytes can be run. -/
instance decidableForallBytes (p : UInt8 → Prop) [DecidablePred p] (s : Bytes) :
    Decidable (∀ b ∈ s, p b) :=
  List.decidableBAll p s

instance decidableForallHead (p : UInt8 → Prop) [DecidablePred p] (o : Option UInt8) :
    Decidable (∀ b ∈ o, p b) :=
  Option.decidableForallMem o

/-! ### C strings -/

/-- The C string at the start of a block: the bytes before the first zero byte. -/
def cstr (m : Bytes) : Bytes := m.takeWhile (· ≠ 0)

@[simp] theorem cstr_nil : cstr [] = [] := rfl

@[simp] theorem cstr_zero_cons (m : Bytes) : cstr (0 :: m) = [] := rfl

/-- A byte that is not zero belongs to the string. -/
theorem cstr_cons_of_ne {b : UInt8} (h : b ≠ 0) (m : Bytes) : cstr (b :: m) = b :: cstr m := by
  simp [cstr, h]

/-- A string ends before its zero. -/
theorem zero_not_mem_cstr (m : Bytes) : 0 ∉ cstr m := by
  intro h
  have := List.mem_takeWhile_imp h
  simp at this

/-- The string is the front of its memory. -/
theorem prefix_cstr (m : Bytes) : cstr m <+: m := List.takeWhile_prefix _

/-- A string is no longer than its memory. -/
theorem length_cstr_le (m : Bytes) : (cstr m).length ≤ m.length := (prefix_cstr m).length_le

/-- Without a zero byte in `s`, the string runs on into what follows. -/
theorem cstr_append {s : Bytes} (h : 0 ∉ s) (t : Bytes) : cstr (s ++ t) = s ++ cstr t := by
  induction s with
  | nil => rfl
  | cons b s ih =>
    rw [List.mem_cons, not_or] at h
    rw [List.cons_append, cstr_cons_of_ne (Ne.symm h.1), ih h.2, List.cons_append]

/-- Text without a zero is a string already. -/
theorem cstr_eq_self {s : Bytes} (h : 0 ∉ s) : cstr s = s := by
  simpa using cstr_append h []

/-- A zero byte ends the string, whatever the block holds behind it. -/
theorem cstr_terminated (s t : Bytes) : cstr (s ++ 0 :: t) = cstr s := by
  induction s with
  | nil => rfl
  | cons b s ih =>
    by_cases hb : b = 0
    · subst hb; rfl
    · rw [List.cons_append, cstr_cons_of_ne hb, ih, cstr_cons_of_ne hb]

/-! ### Writing into a block -/

/-- Overwrite the block `m` with `bs` from offset `off` on. -/
def poke (m : Bytes) (off : Nat) (bs : Bytes) : Bytes :=
  m.take off ++ bs ++ m.drop (off + bs.length)

/-- Writing behind a prefix of known length keeps the prefix. -/
theorem poke_append (a b bs : Bytes) :
    poke (a ++ b) a.length bs = a ++ bs ++ b.drop bs.length := by
  simp [poke, List.drop_append]

/-- Written at the front, bytes cover what was there. -/
theorem poke_zero (m bs : Bytes) : poke m 0 bs = bs ++ m.drop bs.length := by
  simp [poke]

/-! ### String functions -/

/-- `strncpy(dst, src, n)`: at most `n` bytes of the string, padded with zeros up to `n`. -/
def strncpy (src : Bytes) (n : Nat) : Bytes :=
  src.take n ++ List.replicate (n - src.length) 0

/-- A copy that is terminated at `n` reads back as the first `n` bytes of the string. -/
theorem cstr_strncpy {src : Bytes} (h : 0 ∉ src) (n : Nat) :
    cstr (strncpy src n ++ [0]) = src.take n := by
  have hz : 0 ∉ src.take n := fun hm => h (List.mem_of_mem_take hm)
  rw [strncpy, List.append_assoc, cstr_append hz]
  cases n - src.length with
  | zero => simp
  | succ k => simp [List.replicate_succ]

/-- `strstr(hay, needle)`: the rest of the string from the first occurrence on. -/
def strstr (hay needle : Bytes) : Option Bytes := findFirst needle (cstr hay)

/-- `strstr` fails exactly where the needle is not in the string. -/
theorem strstr_eq_none_iff (hay needle : Bytes) :
    strstr hay needle = none ↔ ¬ needle <:+: cstr hay :=
  findFirst_eq_none_iff _ _

/-- White space as `isspace` has it in the C locale. -/
def isspace (b : UInt8) : Bool := b = 32 || (9 ≤ b && b ≤ 13)

end SimpleHttp.Lib
