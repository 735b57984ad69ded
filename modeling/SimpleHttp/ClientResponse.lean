import SimpleHttp.Client

namespace SimpleHttp

open Lib

/-!
# The client's result as a function of the response

* `StatusLine` — a response that starts with `HTTP/<version> <code>`.
* `statusCode_of_statusLine` — the code is scanned from any part of the response that reaches
  past its status line.
* `readResponse_of_zeroFree` — what the client does with a response without zero bytes, in terms
  of the response alone.
* `main_cut_irrelevant` — hence the cut into `recv` results does not matter.
* `readResponse_faithful_iff` — with zero bytes, exactly when the client is faithful.
-/

/-! ### The status line -/

/-- The response `r` starts with `HTTP/`, a version word, spaces and a decimal code, and goes on
    with `t`, which does not start with a digit. -/
structure StatusLine (r version sp code t : Bytes) : Prop where
  eq : r = ascii "HTTP/" ++ (version ++ (sp ++ (code ++ t)))
  version_word : IsWord version
  sp_ne_nil : sp ≠ []
  sp_spaces : ∀ b ∈ sp, b = 32
  code_ne_nil : code ≠ []
  code_digits : ∀ b ∈ code, isdigit b = true
  code_end : ∀ b ∈ t.head?, isdigit b = false

/-- The code as `sscanf` converts it. -/
def scannedCode (code : Bytes) : Int := toInt32 (clampLong (digitsValue code))

/-- The scan of a status line: version, spaces, code. -/
theorem sscanf_status {version sp code t : Bytes} (hv : IsWord version) (hne : sp ≠ [])
    (hsp : ∀ b ∈ sp, b = 32) (hc : code ≠ []) (hd : ∀ b ∈ code, isdigit b = true)
    (ht : ∀ b ∈ t.head?, isdigit b = false) :
    sscanf statusFormat (ascii "HTTP/" ++ (version ++ (sp ++ (code ++ t))))
      = [.int (scannedCode code)] := by
  have hlit : ∀ s : Bytes, sscanf statusFormat (ascii "HTTP/" ++ s)
      = sscanf [.skipStr, .space, .int] s := fun _ => rfl
  have hspace : ∀ b ∈ sp, isspace b = true := by
    intro b hb
    rw [hsp b hb]
    decide
  have hend : EndsWord (sp ++ (code ++ t)) := head_append hne hspace _
  have hskip : sscanf [.space, .int] (code ++ t) = sscanf [.int] (code ++ t) := by
    rw [sscanf, skipSpace_of_word ⟨hc, fun b hb => (isdigit_spec (hd b hb)).1⟩]
  rw [hlit, sscanf_skipStr hv hend, sscanf_space_append hspace, hskip, sscanf_int hc hd ht]
  rfl

/-- Carriage returns come only behind the status line. -/
theorem StatusLine.cr_not_mem {r version sp code t : Bytes}
    (h : StatusLine r version sp code t) : 13 ∉ ascii "HTTP/" ++ (version ++ (sp ++ code)) := by
  simp only [List.mem_append, not_or]
  refine ⟨by decide, fun hm => ?_, fun hm => ?_, fun hm => ?_⟩
  · exact absurd (h.version_word.2 _ hm) (by decide)
  · exact absurd (h.sp_spaces _ hm) (by decide)
  · exact absurd (h.code_digits _ hm) (by decide)

/-- A zero-free part of the response that contains the end of the headers starts with the same
    status line. -/
theorem statusCode_of_statusLine {r version sp code t h : Bytes}
    (hline : StatusLine r version sp code t) (hpre : h <+: r) (hz : 0 ∉ h)
    (hin : crlfcrlf <:+: h) : statusCode h = scannedCode code := by
  have hr : r = (ascii "HTTP/" ++ (version ++ (sp ++ code))) ++ t := by
    rw [hline.eq]; simp
  have hcr : 13 ∈ h := hin.subset (by decide)
  -- `h` has a carriage return, so it reaches into `t`
  obtain ⟨t', ht', hne, hpre'⟩ : ∃ t', h = (ascii "HTTP/" ++ (version ++ (sp ++ code))) ++ t' ∧
      t' ≠ [] ∧ t' <+: t := by
    rw [hr] at hpre
    rcases List.prefix_or_prefix_of_prefix hpre (List.prefix_append _ t) with hsub | ⟨t', rfl⟩
    · exact absurd (hsub.subset hcr) hline.cr_not_mem
    · refine ⟨t', rfl, ?_, (List.prefix_append_right_inj _).mp hpre⟩
      rintro rfl
      rw [List.append_nil] at hcr
      exact hline.cr_not_mem hcr
  have hend : ∀ b ∈ t'.head?, isdigit b = false := by
    obtain ⟨u, rfl⟩ := hpre'
    cases t' with
    | nil => exact absurd rfl hne
    | cons d t' => exact fun b hb => hline.code_end b (by simpa using hb)
  have hassoc : h = ascii "HTTP/" ++ (version ++ (sp ++ (code ++ t'))) := by
    rw [ht']; simp
  rw [statusCode, cstr_eq_self hz, hassoc, sscanf_status hline.version_word hline.sp_ne_nil
    hline.sp_spaces hline.code_ne_nil hline.code_digits hend]

/-! ### Responses without zero bytes -/

/-- The bytes received up to and including the chunk that completes the end of the headers fit
    `headers`. -/
def HeadersFit (cs : List Chunk) : Prop :=
  ∀ h rest, upTo crlfcrlf [] (cs.map Chunk.bytes) = some (h, rest) → h.length ≤ headersSize - 1

/-- A response that is short enough as a whole. -/
theorem headersFit_of_length {cs : List Chunk} (h : (flat cs).length ≤ headersSize - 1) :
    HeadersFit cs := by
  intro headers rest hup
  have hflat := congrArg List.length (upTo_flatten hup)
  rw [List.nil_append, ← flat, List.length_append] at hflat
  omega

/-- A zero-free response with the end of the headers in it is handled by the code scanned from
    the part of it that has arrived by the end of the header loop. -/
theorem readResponse_of_complete {r : Bytes} {cs : List Chunk} (hz : 0 ∉ r)
    (hin : crlfcrlf <:+: r) (hcs : flat cs = r) (hfit : HeadersFit cs) :
    ∃ h rest, upTo crlfcrlf [] (cs.map Chunk.bytes) = some (h, rest) ∧ h <+: r ∧
      crlfcrlf <:+: h ∧ readResponse (chunksThenClose cs) = .ok
        (if statusCode h = 200 then ⟨0, (after crlfcrlf r).getD [], [], []⟩
         else ⟨-1, [], r, []⟩) := by
  have htexts : texts cs = cs.map Chunk.bytes := texts_eq (hcs ▸ hz)
  rw [readResponse_data, reply, htexts]
  cases hup : upTo crlfcrlf [] (cs.map Chunk.bytes) with
  | none =>
    rw [upTo_eq_none_iff _ _ _ (by decide), List.nil_append, ← flat, hcs] at hup
    exact absurd hin hup
  | some p =>
    obtain ⟨headers, rest⟩ := p
    have hflat : headers ++ rest.flatten = r := by
      rw [upTo_flatten hup, List.nil_append, ← flat, hcs]
    have hlen : headers.length < headersSize := by
      have hpos : 0 < headersSize := by decide
      have := hfit _ _ hup
      omega
    obtain ⟨used, c, -, -, hin', -⟩ := upTo_eq_some hup
    obtain ⟨b, hb, hafter⟩ := after_upTo hup
    rw [List.nil_append, ← flat, hcs] at hafter
    refine ⟨headers, rest, rfl, hflat ▸ List.prefix_append _ _, hin', ?_⟩
    simp only [hlen, if_true, hb, hafter, Option.getD_some, hflat]
    split <;> rfl

/-- **The client on a zero-free response.** -/
theorem readResponse_of_zeroFree {r version sp code t : Bytes} {cs : List Chunk}
    (hline : StatusLine r version sp code t) (hz : 0 ∉ r) (hin : crlfcrlf <:+: r)
    (hcs : flat cs = r) (hfit : HeadersFit cs) :
    readResponse (chunksThenClose cs) = .ok
      (if scannedCode code = 200 then ⟨0, (after crlfcrlf r).getD [], [], []⟩
       else ⟨-1, [], r, []⟩) := by
  obtain ⟨h, rest, -, hpre, hin', hrun⟩ := readResponse_of_complete hz hin hcs hfit
  rw [hrun, statusCode_of_statusLine hline hpre (fun h0 => hz (hpre.subset h0)) hin']

/-- **The cut does not matter.**  Two ways to receive the same zero-free response lead to the same
    output and the same return value. -/
theorem main_cut_irrelevant (argv : List Bytes) (env : ClientEnv) {r version sp code t : Bytes}
    {cs ds : List Chunk} (hline : StatusLine r version sp code t) (hz : 0 ∉ r)
    (hin : crlfcrlf <:+: r) (hcs : flat cs = r) (hds : flat ds = r) (hfitc : HeadersFit cs)
    (hfitd : HeadersFit ds) :
    ∃ exit, Client.main argv env (chunksThenClose cs) = .ok exit ∧
      Client.main argv env (chunksThenClose ds) = .ok exit := by
  have hc := readResponse_of_zeroFree hline hz hin hcs hfitc
  have hd := readResponse_of_zeroFree hline hz hin hds hfitd
  simp only [Client.main, hc, hd]
  cases connectAndSend argv env with
  | error exit => exact ⟨exit, rfl, rfl⟩
  | ok sent => exact ⟨_, rfl, rfl⟩

/-- The response `HTTP/1.0 200 OK\r\n\r\nhi`, cut inside its `\r\n\r\n` and behind it. -/
theorem main_cut_irrelevant_page :
    ∃ exit, Client.main [[], [], [], ascii "/page"] ⟨true, none, none, none, [], none⟩
        (chunksThenClose [⟨ascii "HTTP/1.0 200 OK\r\n\r", by decide, by decide⟩,
          ⟨ascii "\nhi", by decide, by decide⟩]) = .ok exit ∧
      Client.main [[], [], [], ascii "/page"] ⟨true, none, none, none, [], none⟩
        (chunksThenClose [⟨ascii "HTTP/1.0 200 OK\r\n\r\n", by decide, by decide⟩,
          ⟨ascii "hi", by decide, by decide⟩]) = .ok exit := by
  have hline : StatusLine (ascii "HTTP/1.0 200 OK\r\n\r\nhi") (ascii "1.0") [32] (ascii "200")
      (ascii " OK\r\n\r\nhi") :=
    ⟨by decide, ⟨by decide, by decide⟩, by decide, by decide, by decide, by decide, by decide⟩
  exact main_cut_irrelevant _ _ hline (by decide) (by decide) (by decide) (by decide)
    (headersFit_of_length (by decide)) (headersFit_of_length (by decide))

/-! ### Responses with zero bytes -/

/-- The client has passed the response on as it was received: behind a code of 200 the bytes after
    the first `\r\n\r\n` on stdout, behind any other the whole response on stderr. -/
def Faithful (r code : Bytes) (result : Except Undefined Exit) : Prop :=
  ∃ exit, result = .ok exit ∧ (digitsValue code = 200 → after crlfcrlf r = some exit.stdout) ∧
    (digitsValue code ≠ 200 → exit.stderr = r)

/-- Cut at their first zero byte, the chunks up to the end of the headers scan as a 200. -/
def ReadsAs200 (cs : List Chunk) : Prop :=
  ∃ headers rest, upTo crlfcrlf [] (texts cs) = some (headers, rest) ∧ statusCode headers = 200

/-- The zero bytes of a 200 response lie where they do no harm: with every chunk cut at its first
    zero byte the response still reads as a 200 and has the same bytes after its first
    `\r\n\r\n`.  (If it does not read as a 200 any more, nothing is lost only if there is
    nothing after the `\r\n\r\n`.) -/
def HarmlessZeros (r : Bytes) (cs : List Chunk) : Prop :=
  (ReadsAs200 cs ∧ after crlfcrlf (kept cs) = after crlfcrlf r) ∨
    (¬ ReadsAs200 cs ∧ after crlfcrlf r = some [])

/-- The raw head of a response: how its chunks split around the one that completes the end of the
    headers. -/
theorem raw_head {r : Bytes} {cs : List Chunk} (hcs : flat cs = r) (hin : crlfcrlf <:+: r)
    (hfit : HeadersFit cs) :
    ∃ us ds b, cs = us ++ ds ∧ (flat us).length ≤ headersSize - 1 ∧
      after crlfcrlf (flat us) = some b ∧ after crlfcrlf r = some (b ++ flat ds) := by
  cases hup : upTo crlfcrlf [] (cs.map Chunk.bytes) with
  | none =>
    rw [upTo_eq_none_iff _ _ _ (by decide), List.nil_append, ← flat, hcs] at hup
    exact absurd hin hup
  | some p =>
    obtain ⟨h, rest⟩ := p
    obtain ⟨used, c, hsplit, hh, -, -⟩ := upTo_eq_some hup
    obtain ⟨b, hb, hafter⟩ := after_upTo hup
    rw [show used ++ c :: rest = (used ++ [c]) ++ rest by simp] at hsplit
    obtain ⟨us, ds, rfl, hus, hds⟩ := List.map_eq_append_iff.mp hsplit
    have hflat : flat us = h := by rw [flat, hus, hh]; simp
    refine ⟨us, ds, b, rfl, ?_, by rw [hflat, hb], ?_⟩
    · rw [hflat]
      exact hfit _ _ hup
    · rw [← hcs, flat, flat, hds]
      exact hafter

/-- What is kept is no more than what was sent. -/
theorem length_kept_le (cs : List Chunk) : (kept cs).length ≤ (flat cs).length := by
  induction cs with
  | nil => simp [kept]
  | cons c cs ih =>
    have hc := length_cstr_le c.bytes
    rw [kept] at ih ⊢
    simp only [texts_cons, List.flatten_cons, flat_cons, List.length_append]
    omega

theorem kept_append (cs ds : List Chunk) : kept (cs ++ ds) = kept cs ++ kept ds := by
  simp [kept, texts]

/-- As long as zero bytes do no harm, `headers` is not overrun. -/
theorem headers_fit_of_harmless {r : Bytes} {cs : List Chunk} (hcs : flat cs = r)
    (hin : crlfcrlf <:+: r) (hfit : HeadersFit cs) (hok : HarmlessZeros r cs) :
    ∃ exit, reply (texts cs) = .ok exit := by
  have hpos : 0 < headersSize := by decide
  obtain ⟨us, ds, b, rfl, hlen, hb, hafter⟩ := raw_head hcs hin hfit
  have hus := length_kept_le us
  rcases hok with ⟨⟨headers, rest, hup, hcode⟩, hkept⟩ | ⟨-, hnil⟩
  · have hz : 0 ∉ b ++ flat ds := by
      obtain ⟨pre, hpre, -⟩ :=
        (after_eq_some_iff crlfcrlf_ne_nil _ _).mp (hkept.trans hafter)
      exact fun hz => zero_not_mem_kept (us ++ ds) (hpre ▸ List.mem_append_right _ hz)
    have hds : kept ds = flat ds := kept_eq fun h => hz (List.mem_append_right _ h)
    -- the body of the kept text starts inside the chunks of the raw head
    have hinus : crlfcrlf <:+: kept us := by
      obtain ⟨pre, hpre, hcomp⟩ :=
        (after_eq_some_iff crlfcrlf_ne_nil _ _).mp (hkept.trans hafter)
      rw [kept_append, hds, ← List.append_assoc] at hpre
      rw [List.append_cancel_right hpre]
      exact hcomp.1.isInfix.trans (List.prefix_append _ _).isInfix
    have hpre : headers <+: kept us := by
      rw [texts, List.map_append, ← texts, ← texts] at hup
      exact prefix_of_upTo (by decide) hinus hup
    have hfits : headers.length < headersSize := by
      have := hpre.length_le
      omega
    simp only [reply, hup, hfits, if_true]
    split <;> exact ⟨_, rfl⟩
  · have hds : flat ds = [] := by
      rw [hnil] at hafter
      simpa using (List.append_eq_nil_iff.mp (Option.some.inj hafter).symm).2
    have hall : (kept (us ++ ds)).length < headersSize := by
      have h1 := length_kept_le ds
      rw [hds] at h1
      rw [kept_append, List.length_append]
      simp only [List.length_nil] at h1
      omega
    rw [reply]
    cases hup : upTo crlfcrlf [] (texts (us ++ ds)) with
    | none =>
      rw [← kept]
      simp only [hall, if_true]
      exact ⟨_, rfl⟩
    | some p =>
      obtain ⟨headers, rest⟩ := p
      have hfits : headers.length < headersSize := by
        have hflat := congrArg List.length (upTo_flatten hup)
        rw [List.nil_append, ← kept, List.length_append] at hflat
        omega
      simp only [hfits, if_true]
      split <;> exact ⟨_, rfl⟩

/-- What the client returns and writes, whenever its run is defined. -/
theorem reply_exit {cs : List Chunk} {exit : Exit} (h : reply (texts cs) = .ok exit) :
    (ReadsAs200 cs ∧ exit.code = 0 ∧ after crlfcrlf (kept cs) = some exit.stdout ∧
        exit.stderr = []) ∨
      (¬ ReadsAs200 cs ∧ exit.code = -1 ∧ exit.stdout = [] ∧ 0 ∉ exit.stderr) := by
  rw [reply] at h
  split at h
  · rename_i hup
    refine Or.inr ⟨?_, ?_⟩
    · rintro ⟨headers, rest, hup', -⟩
      rw [hup] at hup'
      cases hup'
    · split at h
      · cases h; decide
      · cases h
  · rename_i headers rest hup
    split at h
    · split at h
      · rename_i hlen hcode
        cases h
        obtain ⟨b, hb, hafter⟩ := after_upTo hup
        rw [List.nil_append, ← kept] at hafter
        exact Or.inl ⟨⟨headers, rest, hup, hcode⟩, rfl, by rw [hafter, hb]; rfl, rfl⟩
      · rename_i hlen hcode
        cases h
        refine Or.inr ⟨?_, rfl, rfl, ?_⟩
        · rintro ⟨headers', rest', hup', hcode'⟩
          rw [hup] at hup'
          cases hup'
          exact hcode hcode'
        · have hflat := upTo_flatten hup
          rw [List.nil_append, ← kept] at hflat
          simp only
          rw [hflat]
          exact zero_not_mem_kept cs
    · cases h

/-- **When the client is faithful.**  For a 200 response exactly when its zero bytes are harmless;
    for any other exactly when it has no zero byte and its code is not one that a 32-bit `int`
    holds as 200. -/
theorem readResponse_faithful_iff {r version sp code t : Bytes} {cs : List Chunk}
    (hline : StatusLine r version sp code t) (hin : crlfcrlf <:+: r) (hcs : flat cs = r)
    (hfit : HeadersFit cs) :
    Faithful r code (readResponse (chunksThenClose cs)) ↔
      (digitsValue code = 200 → HarmlessZeros r cs) ∧
      (digitsValue code ≠ 200 → 0 ∉ r ∧ scannedCode code ≠ 200) := by
  constructor
  · rintro ⟨exit, hrun, hok, herr⟩
    rw [readResponse_data] at hrun
    refine ⟨fun h200 => ?_, fun hne => ?_⟩
    · have hbody := hok h200
      rcases reply_exit hrun with ⟨hread, -, hkept, -⟩ | ⟨hread, -, hnil, -⟩
      · exact Or.inl ⟨hread, hkept.trans hbody.symm⟩
      · exact Or.inr ⟨hread, by rw [hbody, hnil]⟩
    · have hall := herr hne
      have hr : r ≠ [] := by rw [hline.eq]; simp [ascii]
      have hz : 0 ∉ r := by
        rcases reply_exit hrun with ⟨-, -, -, hnil⟩ | ⟨-, -, -, hz⟩
        · exact absurd (hall.symm.trans hnil) hr
        · rwa [hall] at hz
      -- read as 200, the reply would have gone to stdout
      refine ⟨hz, fun hcode => hr ?_⟩
      rw [← readResponse_data, readResponse_of_zeroFree hline hz hin hcs hfit, if_pos hcode] at hrun
      cases hrun
      exact hall.symm
  · rintro ⟨h200, hne⟩
    by_cases hcode : digitsValue code = 200
    · -- zero bytes that do no harm do not make `headers` overrun either
      obtain ⟨exit, hrun⟩ := headers_fit_of_harmless hcs hin hfit (h200 hcode)
      refine ⟨exit, by rw [readResponse_data, hrun], fun _ => ?_, fun h => absurd hcode h⟩
      rcases reply_exit hrun with ⟨hread, -, hkept, -⟩ | ⟨hread, -, hnil, -⟩
      · rcases h200 hcode with ⟨-, heq⟩ | ⟨hno, -⟩
        · rw [← heq, hkept]
        · exact absurd hread hno
      · rcases h200 hcode with ⟨hyes, -⟩ | ⟨-, heq⟩
        · exact absurd hyes hread
        · rw [heq, hnil]
    · obtain ⟨hz, hscan⟩ := hne hcode
      refine ⟨_, readResponse_of_zeroFree hline hz hin hcs hfit, fun h => absurd h hcode,
        fun _ => ?_⟩
      rw [if_neg hscan]

/-- A zero byte in the head that costs only header text: the client is faithful. -/
theorem readResponse_faithful_zero_in_head :
    Faithful (ascii "HTTP/1.0 200 OK\r\nX: a" ++ 0 :: ascii "b\r\n\r\nhi") (ascii "200")
      (readResponse (chunksThenClose
        [⟨ascii "HTTP/1.0 200 OK\r\nX: a" ++ [0], by decide, by decide⟩,
          ⟨ascii "b\r\n\r\nhi", by decide, by decide⟩])) := by
  have hline : StatusLine (ascii "HTTP/1.0 200 OK\r\nX: a" ++ 0 :: ascii "b\r\n\r\nhi")
      (ascii "1.0") [32] (ascii "200") (ascii " OK\r\nX: a" ++ 0 :: ascii "b\r\n\r\nhi") :=
    ⟨by decide, ⟨by decide, by decide⟩, by decide, by decide, by decide, by decide, by decide⟩
  refine (readResponse_faithful_iff hline (by decide) (by decide)
    (headersFit_of_length (by decide))).mpr ⟨fun _ => Or.inl ⟨⟨_, _, rfl, ?_⟩, ?_⟩, ?_⟩
  · decide
  · decide
  · exact fun h => absurd (by decide) h

/-- A 200 response whose body is the three bytes 65, 0, 66. -/
def zeroInBody : Chunk := ⟨ascii "HTTP/1.0 200 OK\r\n\r\n" ++ [65, 0, 66], by decide, by decide⟩

/-- Received in one piece, it reaches stdout as the one byte 65, with return value 0. -/
theorem readResponse_unfaithful_zeroInBody :
    StatusLine zeroInBody.bytes (ascii "1.0") [32] (ascii "200")
      (ascii " OK\r\n\r\n" ++ [65, 0, 66]) ∧
    crlfcrlf <:+: zeroInBody.bytes ∧ flat [zeroInBody] = zeroInBody.bytes ∧
    HeadersFit [zeroInBody] ∧
    readResponse (chunksThenClose [zeroInBody]) = .ok ⟨0, [65], [], []⟩ ∧
    ¬ Faithful zeroInBody.bytes (ascii "200") (readResponse (chunksThenClose [zeroInBody])) := by
  have hrun : readResponse (chunksThenClose [zeroInBody]) = .ok ⟨0, [65], [], []⟩ := by rfl
  refine ⟨⟨by decide, ⟨by decide, by decide⟩, by decide, by decide, by decide, by decide,
    by decide⟩, by decide, by decide, headersFit_of_length (by decide), hrun, ?_⟩
  rintro ⟨exit, hexit, h200, -⟩
  rw [hrun] at hexit
  cases hexit
  exact absurd (h200 (by decide)) (by decide)

end SimpleHttp
