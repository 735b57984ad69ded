import SimpleHttp.PetHashtable

namespace SimpleHttp.PetHashtable

/-!
# The hash functions

* `petHashPtr_eq` — the shifts of `pet_hash_ptr` multiply by `GOLDEN_RATIO_PRIME_64`, a constant
  that no line of the program uses.
* `petHashU32_eq_iff` — `pet_hash_u32` tells apart the keys whose low 32 bits differ, and no others.
* `petHashBuffer_lt` — the hash of a buffer has 28 bits.
* `spread_merges` — `do_hash` rotates where the code that it is taken from shifts, and so no hash
  comes out of it alone.
-/

/-! ### Products -/

/-- A shift is a product, as the machine has it. -/
theorem shiftLeft_eq_mul64 (x n : UInt64) (hn : n.toNat < 64) :
    x <<< n = x * UInt64.ofNat (1 <<< n.toNat) := by
  rw [← UInt64.toNat_inj, UInt64.toNat_shiftLeft, Nat.mod_eq_of_lt hn, Nat.shiftLeft_eq,
    UInt64.toNat_mul]
  show _ = x.toNat * (1 <<< n.toNat % 2 ^ 64) % 2 ^ 64
  rw [Nat.one_shiftLeft, Nat.mul_mod_mod]

/-- A shift of 32 bits is a product. -/
theorem shiftLeft_eq_mul32 (x n : UInt32) (hn : n.toNat < 32) :
    x <<< n = x * UInt32.ofNat (1 <<< n.toNat) := by
  rw [← UInt32.toNat_inj, UInt32.toNat_shiftLeft, Nat.mod_eq_of_lt hn, Nat.shiftLeft_eq,
    UInt32.toNat_mul]
  show _ = x.toNat * (1 <<< n.toNat % 2 ^ 32) % 2 ^ 32
  rw [Nat.one_shiftLeft, Nat.mul_mod_mod]

/-- **Pointers.**  The six sums and differences are one product, and the hash is its upper half. -/
theorem petHashPtr_eq (val : UInt64) :
    petHashPtr val = ((val * goldenRatioPrime64) >>> 32).toUInt32 := by
  have h18 := fun x => shiftLeft_eq_mul64 x 18 (by decide)
  have h33 := fun x => shiftLeft_eq_mul64 x 33 (by decide)
  have h3 := fun x => shiftLeft_eq_mul64 x 3 (by decide)
  have h4 := fun x => shiftLeft_eq_mul64 x 4 (by decide)
  have h2 := fun x => shiftLeft_eq_mul64 x 2 (by decide)
  have hproduct : ∀ a b c d e f : UInt64,
      val - val * a - val * a * b + val * a * b * c - val * a * b * c * d
          + val * a * b * c * d * e + val * a * b * c * d * e * f
        = val * (1 - a - a * b + a * b * c - a * b * c * d + a * b * c * d * e
          + a * b * c * d * e * f) := by
    intros
    grind
  rw [petHashPtr]
  simp only [h18, h33, h3, h4, h2]
  rw [hproduct]
  -- what is left of the factor is a constant
  rfl

/-- **Keys of 32 bits.**  The multiplier is odd, and so it has an inverse. -/
theorem petHashU32_eq_iff (val₁ val₂ : UInt64) :
    petHashU32 val₁ = petHashU32 val₂ ↔ val₁.toUInt32 = val₂.toUInt32 := by
  have hmul : ∀ val, petHashU32 val = val.toUInt32 * 0x9e370001 := by
    intro val
    rw [petHashU32, UInt64.toUInt32_mul, UInt32.toUInt32_toUInt64]
    rfl
  have hinverse : ∀ x : UInt32, x * 0x9e370001 * 0x61c90001 = x := by
    intro x
    rw [UInt32.mul_assoc]
    exact UInt32.mul_one x
  rw [hmul, hmul]
  constructor
  · intro h
    rw [← hinverse val₁.toUInt32, h, hinverse]
  · intro h
    rw [h]

/-! ### Buffers -/

/-- The mask has its four highest bits set. -/
theorem upperMask_getLsbD (k : Nat) (h28 : 28 ≤ k) (h32 : k < 32) :
    (0xF0000000 : UInt32).toBitVec.getLsbD k = true := by
  obtain rfl | rfl | rfl | rfl : k = 28 ∨ k = 29 ∨ k = 30 ∨ k = 31 := by omega
  all_goals rfl

/-- The upper four bits are gone after every byte. -/
theorem hashByte_lt (hash : UInt32) (b : UInt8) (i : UInt32) :
    (hashByte hash b i).toNat < 0x10000000 := by
  apply Nat.lt_pow_two_of_testBit (n := 28)
  intro k hk
  rw [hashByte]
  generalize (hash <<< 4) + b.toUInt32 + i = h
  show BitVec.getLsbD (_ &&& ~~~_ : UInt32).toBitVec k = false
  -- what is folded back in does not reach the bits that are cut
  have hfold : (if h &&& 0xF0000000 ≠ 0 then h ^^^ ((h &&& 0xF0000000) >>> 24)
      else h).toBitVec.getLsbD k = h.toBitVec.getLsbD k := by
    split
    · have hout : 32 ≤ 24 + k := by omega
      simp [BitVec.getLsbD_of_ge, hout]
    · rfl
  by_cases h32 : k < 32
  · rw [UInt32.toBitVec_and, UInt32.toBitVec_not, BitVec.getLsbD_and, BitVec.getLsbD_not, hfold,
      UInt32.toBitVec_and, BitVec.getLsbD_and, upperMask_getLsbD k hk h32]
    simp [h32]
  · apply BitVec.getLsbD_of_ge
    omega

/-- The loop of `pet_hash_buffer` keeps its value below 2 ^ 28. -/
theorem hashLoop_lt (msg : List UInt8) (hash i : UInt32) (h : hash.toNat < 0x10000000) :
    (hashLoop hash i msg).toNat < 0x10000000 := by
  induction msg generalizing hash i with
  | nil => exact h
  | cons b msg ih =>
    apply ih
    apply hashByte_lt

/-- **Buffers.** -/
theorem petHashBuffer_lt (msg : List UInt8) : (petHashBuffer msg).toNat < 0x10000000 := by
  apply hashLoop_lt
  decide

/-! ### `do_hash` -/

/-- A rotation goes bit by bit. -/
theorem rotate_xor (y m : UInt32) :
    ((y ^^^ m) >>> 14) ||| ((y ^^^ m) <<< 18)
      = ((y >>> 14) ||| (y <<< 18)) ^^^ ((m >>> 14) ||| (m <<< 18)) := by
  rw [← UInt32.toBitVec_inj]
  apply BitVec.eq_of_getLsbD_eq
  intro k hk
  -- each bit comes from one of the two shifts
  by_cases h : k < 18
  · simp [h]
  · have hout : 32 ≤ 14 + k := by omega
    simp [h, hk, BitVec.getLsbD_of_ge, hout]

/-- The words of the period two, which a rotation by 14 leaves as they are. -/
def alternating : List UInt32 := [0, 0x55555555, 0xAAAAAAAA, 0xFFFFFFFF]

/-- A rotation by 14 leaves the alternating patterns alone. -/
theorem rotate_alternating {m : UInt32} (hm : m ∈ alternating) :
    (m >>> 14) ||| (m <<< 18) = m := by
  have hall : (alternating.all fun m => (m >>> 14) ||| (m <<< 18) == m) = true := by decide
  rw [List.all_eq_true] at hall
  exact eq_of_beq (hall m hm)

/-- The second line of `do_hash` does not see an alternating word. -/
theorem xor_rotate_merges (y : UInt32) {m : UInt32} (hm : m ∈ alternating) :
    (y ^^^ m) ^^^ (((y ^^^ m) >>> 14) ||| ((y ^^^ m) <<< 18))
      = y ^^^ ((y >>> 14) ||| (y <<< 18)) := by
  rw [rotate_xor, rotate_alternating hm, UInt32.xor_comm (_ ||| _) m, ← UInt32.xor_assoc,
    UInt32.xor_assoc y m m, UInt32.xor_self, UInt32.xor_zero]

/-- The first line of `do_hash`. -/
theorem add_not_shiftLeft (x : UInt32) : x + ~~~(x <<< 9) = x * 0xfffffe01 - 1 := by
  have h9 : x <<< 9 = x * 512 := shiftLeft_eq_mul32 x 9 (by decide)
  rw [UInt32.not_eq_neg_sub, h9]
  grind

/-- What the first line of `do_hash` makes `y` of. -/
def unshift (y : UInt32) : UInt32 := (y + 1) * 0x08040201

/-- `unshift` finds an argument for every value of the first line of `do_hash`. -/
theorem unshift_spec (y : UInt32) : unshift y + ~~~(unshift y <<< 9) = y := by
  rw [add_not_shiftLeft, unshift]
  grind

/-- `unshift` undoes the first line of `do_hash`. -/
theorem unshift_add_not_shiftLeft (x : UInt32) : unshift (x + ~~~(x <<< 9)) = x := by
  rw [add_not_shiftLeft, unshift]
  grind

theorem unshift_injective : Function.Injective unshift := by
  intro y y' h
  rw [← unshift_spec y, h, unshift_spec]

/-- **Spreading.**  Whatever the hash function, `do_hash` makes one hash of four. -/
theorem spread_merges (i : UInt32) :
    ∃ js : List UInt32, js.length = 4 ∧ js.Nodup ∧ i ∈ js ∧ ∀ j ∈ js, spread j = spread i := by
  let y := i + ~~~(i <<< 9)
  refine ⟨alternating.map fun m => unshift (y ^^^ m), rfl, ?_, ?_, ?_⟩
  · apply List.Nodup.map
    · intro m m' h
      exact (UInt32.xor_right_inj y).mp (unshift_injective h)
    · decide
  · rw [List.mem_map]
    refine ⟨0, List.mem_cons_self, ?_⟩
    rw [UInt32.xor_zero, unshift_add_not_shiftLeft]
  · intro j hj
    obtain ⟨m, hm, rfl⟩ := List.mem_map.mp hj
    rw [spread, unshift_spec, xor_rotate_merges y hm]
    rfl

end SimpleHttp.PetHashtable
