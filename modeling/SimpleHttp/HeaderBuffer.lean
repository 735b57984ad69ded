import SimpleHttp.Client

namespace SimpleHttp

open Lib

/-!
# The header buffer of the client

The first read loop of `http_client.c` appends every chunk to `headers` until the end of the
headers has arrived, and nothing in it looks at how much `headers` can hold.

* `headerWrites` — the positions of `headers` that `strcat` writes.
* `headText` — the text that the loop collects.
* `headerWrites_inside_iff` — the positions are inside `headers` exactly if this text is.
-/

/-- The chunks received before the connection ends. -/
def arrived : List RecvResult → List Chunk
  | .data c :: rest => c :: arrived rest
  | _ => []

/-- The text that the header loop collects behind `acc`: up to the end of the headers with all
    that has come in the same chunk, or everything. -/
def headText (acc : Bytes) (ts : List Bytes) : Bytes :=
  match upTo crlfcrlf acc ts with
  | some (text, _) => text
  | none => acc ++ ts.flatten

/-- The positions of `headers` that the header loop writes; behind a write outside of it nothing
    is defined. -/
def headerWrites (headers : Bytes) : List RecvResult → List Nat
  | .data c :: rest =>
      let text := cstr (c.bytes ++ [0])
      let headers' := headers ++ text
      -- `strcat` copies the text and the zero behind it
      List.range' headers.length (text.length + 1) ++
        if headers'.length < headersSize ∧ ¬ (strstr headers' crlfcrlf).isSome then
          headerWrites headers' rest
        else []
  | _ => []

/-- One text more. -/
theorem headText_cons (acc t : Bytes) (ts : List Bytes) :
    headText acc (t :: ts) =
      if crlfcrlf <:+: acc ++ t then acc ++ t else headText (acc ++ t) ts := by
  rw [headText, upTo]
  by_cases hin : crlfcrlf <:+: acc ++ t
  · rw [if_pos hin, if_pos hin]
  · rw [if_neg hin, if_neg hin, headText, List.flatten_cons, List.append_assoc]

/-- What has been collected stays. -/
theorem length_le_headText (acc : Bytes) (ts : List Bytes) :
    acc.length ≤ (headText acc ts).length := by
  unfold headText
  split
  · rename_i text rest hup
    obtain ⟨used, t, -, rfl, -, -⟩ := upTo_eq_some hup
    simp only [List.length_append]
    omega
  · rw [List.length_append]
    omega

/-- The last position written for a text is that of its zero. -/
theorem range'_lt_iff (start len size : Nat) :
    (∀ p ∈ List.range' start (len + 1), p < size) ↔ start + len < size := by
  simp only [List.mem_range'_1]
  constructor
  · intro h
    exact h (start + len) ⟨by omega, by omega⟩
  · intro h p hp
    omega

/-- One turn of the loop stays inside `headers` if its own text does, and what follows does. -/
theorem headerWrites_data (headers : Bytes) (c : Chunk) (rest : List RecvResult) :
    (∀ p ∈ headerWrites headers (.data c :: rest), p < headersSize) ↔
      (headers ++ cstr c.bytes).length < headersSize ∧
        ((strstr (headers ++ cstr c.bytes) crlfcrlf).isSome ∨
          ∀ p ∈ headerWrites (headers ++ cstr c.bytes) rest, p < headersSize) := by
  have htext : cstr (c.bytes ++ [0]) = cstr c.bytes := cstr_terminated _ _
  rw [headerWrites, htext, List.forall_mem_append, range'_lt_iff, ← List.length_append]
  apply and_congr_right
  intro hlt
  by_cases hfound : (strstr (headers ++ cstr c.bytes) crlfcrlf).isSome
  · simp [hfound]
  · rw [if_pos ⟨hlt, hfound⟩, or_iff_right hfound]

/-- A write outside `headers` is what the model takes for undefined. -/
theorem headerLoop_error_iff (headers : Bytes) (recvs : List RecvResult) :
    headerLoop headers recvs = .error .headersOverflow ↔
      ¬ ∀ p ∈ headerWrites headers recvs, p < headersSize := by
  induction recvs generalizing headers with
  | nil => simp [headerLoop, headerWrites]
  | cons r rest ih =>
    cases r with
    | data c =>
      have htext : cstr (c.bytes ++ [0]) = cstr c.bytes := cstr_terminated _ _
      rw [headerWrites_data, headerLoop, htext]
      simp only [← List.length_append]
      by_cases hlt : (headers ++ cstr c.bytes).length < headersSize
      · by_cases hfound : (strstr (headers ++ cstr c.bytes) crlfcrlf).isSome
        · rw [if_pos hlt, if_pos hfound]
          exact iff_of_false (by simp) fun h => h ⟨hlt, Or.inl hfound⟩
        · rw [if_pos hlt, if_neg hfound, ih]
          simp only [hlt, hfound, true_and, false_or, Bool.false_eq_true]
      · -- this `strcat` itself goes too far
        rw [if_neg hlt]
        exact iff_of_true rfl fun h => hlt h.1
    | closed => simp [headerLoop, headerWrites]
    | failed errno => simp [headerLoop, headerWrites]

/-- The positions are inside `headers` if what is collected behind `acc` is. -/
theorem headerWrites_lt_iff {acc : Bytes} (hz : 0 ∉ acc) (hacc : acc.length < headersSize)
    (recvs : List RecvResult) :
    (∀ p ∈ headerWrites acc recvs, p < headersSize) ↔
      (headText acc (texts (arrived recvs))).length < headersSize := by
  induction recvs generalizing acc with
  | nil => simp [headerWrites, headText, arrived, upTo, hacc]
  | cons r rest ih =>
    cases r with
    | data c =>
      rw [headerWrites_data, arrived, texts_cons, headText_cons,
        strstr_isSome_iff (zero_not_mem_append_cstr hz c.bytes)]
      by_cases hin : crlfcrlf <:+: acc ++ cstr c.bytes
      · simp [hin]
      · by_cases hlt : (acc ++ cstr c.bytes).length < headersSize
        · rw [if_neg hin, ← ih (zero_not_mem_append_cstr hz c.bytes) hlt]
          simp only [hin, hlt, true_and, false_or]
        · -- what has been collected only grows
          have hle := length_le_headText (acc ++ cstr c.bytes) (texts (arrived rest))
          rw [if_neg hin]
          exact iff_of_false (fun h => hlt h.1) (by omega)
    | closed => simp [headerWrites, headText, arrived, upTo, hacc]
    | failed errno => simp [headerWrites, headText, arrived, upTo, hacc]

/-- **Header writes.**  Whatever is received, the header loop stays inside `headers` exactly if the
    text that it collects leaves room for a zero. -/
theorem headerWrites_inside_iff (recvs : List RecvResult) :
    (∀ p ∈ headerWrites [] recvs, p < headersSize) ↔
      (headText [] (texts (arrived recvs))).length < headersSize :=
  headerWrites_lt_iff List.not_mem_nil (by decide) recvs

/-- A full chunk that says nothing. -/
def fullChunk : Chunk where
  bytes := List.replicate (bufSize - 1) 97
  nonempty := by decide
  length_le := by rw [List.length_replicate]

/-- Six full chunks without the end of the headers. -/
theorem headerWrites_outside :
    ¬ ∀ p ∈ headerWrites [] (List.replicate 6 (.data fullChunk)), p < headersSize := by
  rw [headerWrites_lt_iff List.not_mem_nil (by decide)]
  have hall : ∀ b ∈ flat (List.replicate 6 fullChunk), b = 97 := by
    intro b hb
    obtain ⟨_, hmem, hb⟩ := List.mem_flatten.mp hb
    obtain ⟨c, hc, rfl⟩ := List.mem_map.mp hmem
    rw [(List.mem_replicate.mp hc).2] at hb
    exact (List.mem_replicate.mp hb).2
  have hnone : upTo crlfcrlf [] ((List.replicate 6 fullChunk).map Chunk.bytes) = none := by
    rw [upTo_eq_none_iff _ _ _ (by decide)]
    intro hin
    -- the end of the headers has a carriage return
    exact absurd (hall 13 (hin.subset (by decide))) (by decide)
  have harrived : arrived (List.replicate 6 (.data fullChunk)) = List.replicate 6 fullChunk := rfl
  have hchunk : fullChunk.bytes.length = 1023 := List.length_replicate
  have hlen : (flat (List.replicate 6 fullChunk)).length = 6138 := by simp [flat, hchunk]
  rw [harrived, texts_eq (fun h0 => absurd (hall 0 h0) (by decide)), headText, hnone]
  show ¬ ([] ++ flat (List.replicate 6 fullChunk)).length < headersSize
  rw [List.nil_append, hlen]
  decide

end SimpleHttp
