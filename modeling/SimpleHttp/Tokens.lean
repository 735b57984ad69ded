import SimpleHttp.Lib.Words
import SimpleHttp.ReadBuffer

namespace SimpleHttp

open Lib

/-!
# The tokens of the request and their arrays

`sscanf(buf, "%s %s %s", method, path, version)` copies the first three words of the buffer, each
with its terminating zero, into arrays of 10, 100 and 10 bytes.

* `parseRequest_cases` — the three outcomes of the parser, told by the words.
* `tokenWrites` — the positions written, and the arrays' sizes.
* `tokenWrites_inside_iff` — for which requests they are all inside the arrays.
-/

/-- The three conversions read the first three words. -/
theorem sscanf_requestFormat (s : Bytes) :
    sscanf requestFormat s = ((words s).take 3).map .str :=
  readsWords_nil.str.space.str.space.str s

/-- The first three words of the text fit their arrays with the terminating zero. -/
def TokensFit (text : Bytes) : Prop :=
  ∀ p ∈ tokenSizes.zip (words text), p.2.length < p.1

instance (text : Bytes) : Decidable (TokensFit text) := List.decidableBAll _ _

/-- **Parser.**  It overruns an array, finds too few tokens, or has a request of three. -/
theorem parseRequest_cases (buf : Bytes) :
    (¬ TokensFit (cstr buf) ∧ parseRequest buf = .error .tokenOverflow) ∨
    (TokensFit (cstr buf) ∧ (words (cstr buf)).length < 3 ∧ parseRequest buf = .ok none) ∨
    (TokensFit (cstr buf) ∧ 3 ≤ (words (cstr buf)).length ∧
      ∃ req, parseRequest buf = .ok (some req)) := by
  have hscan := sscanf_requestFormat (cstr buf)
  unfold parseRequest TokensFit
  rw [hscan]
  -- by the number of words: a token that is too long is written even if there are fewer than three
  rcases words (cstr buf) with _ | ⟨method, _ | ⟨path, _ | ⟨version, rest⟩⟩⟩
  · simp [tokenSizes]
  · by_cases hm : method.length < methodSize
    · simp [tokenSizes, hm]
    · simp [tokenSizes, hm]
  · by_cases hm : method.length < methodSize ∧ path.length < filenameSize
    · simp [tokenSizes, hm]
    · simp [tokenSizes, hm]
  · by_cases hm : method.length < methodSize ∧ path.length < filenameSize ∧
        version.length < versionSize
    · simp [tokenSizes, hm]
    · simp [tokenSizes, hm]

/-! ### The positions written -/

/-- The positions that the conversions write, each behind the size of its array. -/
def tokenWrites (buf : Bytes) : List (Nat × Nat) :=
  (tokenSizes.zip (sscanf requestFormat (cstr buf))).flatMap fun
    | (size, .str tok) => (List.range (tok.length + 1)).map fun i => (size, i)
    | _ => []

/-- The positions, told by the words of the request. -/
theorem tokenWrites_eq (buf : Bytes) :
    tokenWrites buf = (tokenSizes.zip (words (cstr buf))).flatMap fun p =>
      (List.range (p.2.length + 1)).map fun i => (p.1, i) := by
  rw [tokenWrites, sscanf_requestFormat]
  rcases words (cstr buf) with _ | ⟨method, _ | ⟨path, _ | ⟨version, rest⟩⟩⟩ <;> simp [tokenSizes]

/-- The last position written for a token is that of its zero. -/
theorem tokenWrites_lt_iff (buf : Bytes) :
    (∀ w ∈ tokenWrites buf, w.2 < w.1) ↔ TokensFit (cstr buf) := by
  rw [tokenWrites_eq]
  constructor
  · intro h p hp
    -- the zero is written behind the last byte of the token
    have hmem : (p.1, p.2.length) ∈ (tokenSizes.zip (words (cstr buf))).flatMap fun p =>
        (List.range (p.2.length + 1)).map fun i => (p.1, i) := by
      refine List.mem_flatMap.mpr ⟨p, hp, List.mem_map_of_mem ?_⟩
      exact List.mem_range.mpr (Nat.lt_succ_self _)
    exact h _ hmem
  · intro h w hw
    obtain ⟨p, hp, hw⟩ := List.mem_flatMap.mp hw
    obtain ⟨i, hi, rfl⟩ := List.mem_map.mp hw
    have hlen := h p hp
    have hle := List.mem_range.mp hi
    show i < p.1
    omega

/-- A write outside the arrays is what the model takes for undefined. -/
theorem parseRequest_error_iff (buf : Bytes) :
    parseRequest buf = .error .tokenOverflow ↔ ¬ ∀ w ∈ tokenWrites buf, w.2 < w.1 := by
  rw [tokenWrites_lt_iff]
  rcases parseRequest_cases buf with ⟨hfit, heq⟩ | ⟨hfit, -, heq⟩ | ⟨hfit, -, req, heq⟩
  · simp [hfit, heq]
  · simp [hfit, heq]
  · simp [hfit, heq]

/-- **Token writes.**  Whatever is received, the conversions stay inside their arrays exactly if
    the loop gives up, or the first three words of the bytes received fit. -/
theorem tokenWrites_inside_iff (srv : Server) (results : List RecvResult) :
    (∀ buf, (readLoop srv results clearBuf 0).2 = some buf →
        ∀ w ∈ tokenWrites buf, w.2 < w.1) ↔
      (Stops (delivered [] results) → TokensFit (cstr (delivered [] results))) := by
  obtain ⟨-, hnone, hcstr⟩ := readLoop_delivered srv results
  cases hbuf : (readLoop srv results clearBuf 0).2 with
  | none =>
    -- nothing is parsed
    have hgives : ¬ Stops (delivered [] results) := hnone.mp hbuf
    simp [hgives]
  | some buf =>
    have hstops : Stops (delivered [] results) := by
      by_contra hno
      rw [hnone.mpr hno] at hbuf
      cases hbuf
    rw [← hcstr buf hbuf, ← tokenWrites_lt_iff]
    constructor
    · exact fun h _ => h buf rfl
    · rintro h _ ⟨⟩
      exact h hstops

/-- A method of ten bytes: its zero is written behind the end of `method`. -/
theorem tokenWrites_outside :
    ∃ buf, (readLoop .httpServer1 [.data ⟨ascii "ABCDEFGHIJ /a HTTP/1.0\r\n\r\n", by decide,
        by decide⟩] clearBuf 0).2 = some buf ∧
      (methodSize, 10) ∈ tokenWrites buf ∧ ¬ 10 < methodSize :=
  ⟨_, rfl, by decide +kernel, by decide⟩

end SimpleHttp
