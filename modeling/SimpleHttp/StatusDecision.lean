import SimpleHttp.ClientResponse

namespace SimpleHttp

open Lib

/-!
# What decides the client's return value

`sscanf(headers, "HTTP/%*s %d", &status_code)` runs on everything received by the end of the header
loop, its conversions pass over line ends like any other white space, and `%d` takes a sign and
cuts its value to an `int`.

* `StatusScan` — how the format matches a text; `statusCode_eq_200_iff` says that it does.
* `Success` — the first line of a response is that of a successful one.
* `success_iff` — for which matches this is so.
* `main_success_iff` — for which responses the client returns 0 exactly on success.
-/

/-! ### Matches of the format -/

/-- The match of `"HTTP/%*s %d"` on the text `s`: white space, the word skipped, more white space,
    then a sign and the digits of the number, with `t` behind it. -/
structure StatusScan (s lead version sp sign digits t : Bytes) : Prop where
  eq : s = ascii "HTTP/" ++ (lead ++ (version ++ (sp ++ (sign ++ (digits ++ t)))))
  lead_spaces : ∀ b ∈ lead, isspace b = true
  version_word : IsWord version
  sp_ne_nil : sp ≠ []
  sp_spaces : ∀ b ∈ sp, isspace b = true
  sign_cases : IsSign sign
  digits_ne_nil : digits ≠ []
  digits_digits : ∀ b ∈ digits, isdigit b = true
  digits_end : ∀ b ∈ t.head?, isdigit b = false

/-- Behind `HTTP/`, the version is skipped and a number read. -/
theorem sscanf_statusFormat (s : Bytes) :
    sscanf statusFormat (ascii "HTTP/" ++ s) = sscanf [.skipStr, .space, .int] s := rfl

/-- What follows the number may be replaced. -/
theorem StatusScan.with_tail {s lead version sp sign digits t : Bytes}
    (h : StatusScan s lead version sp sign digits t) {t' : Bytes}
    (ht' : ∀ b ∈ t'.head?, isdigit b = false) :
    StatusScan (ascii "HTTP/" ++ (lead ++ (version ++ (sp ++ (sign ++ (digits ++ t'))))))
      lead version sp sign digits t' :=
  { h with eq := rfl, digits_end := ht' }

/-- The number is a word. -/
theorem StatusScan.number_word {s lead version sp sign digits t : Bytes}
    (h : StatusScan s lead version sp sign digits t) : IsWord (sign ++ digits) :=
  isWord_number h.sign_cases h.digits_ne_nil h.digits_digits

/-- A text that matches has its number assigned. -/
theorem StatusScan.sscanf_eq {s lead version sp sign digits t : Bytes}
    (h : StatusScan s lead version sp sign digits t) :
    sscanf statusFormat s = [.int (toInt32 (clampLong (signedValue sign digits)))] := by
  have hend : EndsWord (sp ++ (sign ++ (digits ++ t))) := head_append h.sp_ne_nil h.sp_spaces _
  have hskip : skipSpace (sign ++ (digits ++ t)) = sign ++ (digits ++ t) := by
    rw [← List.append_assoc, skipSpace_of_word h.number_word]
  have hscan := scanInt_append h.sign_cases h.digits_ne_nil h.digits_digits h.digits_end
  rw [h.eq, sscanf_statusFormat, sscanf, skipSpace_append h.lead_spaces,
    skipSpace_of_word h.version_word]
  simp only [token_append h.version_word.2 hend, if_neg h.version_word.1, List.drop_left]
  rw [sscanf_space_append h.sp_spaces, sscanf, hskip, sscanf, hskip, hscan]
  rfl

/-- A text that has a number assigned matches. -/
theorem exists_statusScan {s : Bytes} (h : sscanf statusFormat s ≠ []) :
    ∃ lead version sp sign digits t, StatusScan s lead version sp sign digits t := by
  have hfmt : statusFormat = (ascii "HTTP/").map .lit ++ [.skipStr, .space, .int] := rfl
  rw [hfmt, sscanf_lits] at h
  split at h
  · rename_i hlit
    obtain ⟨u, rfl⟩ := hlit
    rw [List.drop_left] at h
    simp only [sscanf] at h
    obtain ⟨hsplit, hend⟩ := token_append_drop (skipSpace u)
    split at h
    · exact absurd rfl h
    · rename_i hword
      -- `w` is what is left behind the word that is skipped
      obtain ⟨w, hw⟩ : ∃ w, w = (skipSpace u).drop (token (skipSpace u)).length := ⟨_, rfl⟩
      rw [← hw] at h hsplit hend
      have hint : scanInt (skipSpace w) ≠ none := by
        intro hnone
        rw [skipSpace_skipSpace, hnone] at h
        exact h rfl
      obtain ⟨sign, digits, t, hv, hsign, hne, hdig, ht⟩ := scanInt_ne_none hint
      refine ⟨u.takeWhile isspace, token (skipSpace u), w.takeWhile isspace, sign, digits, t, ?_,
        fun b hb => List.mem_takeWhile_imp hb, isWord_token hword, fun hnil => ?_,
        fun b hb => List.mem_takeWhile_imp hb, hsign, hne, hdig, ht⟩
      · have hw' : w.takeWhile isspace ++ skipSpace w = w := List.takeWhile_append_dropWhile
        have hu : u.takeWhile isspace ++ skipSpace u = u := List.takeWhile_append_dropWhile
        rw [← hv, hw', hsplit, hu]
      · -- the word is followed by white space, since the number does not belong to it
        cases w with
        | nil =>
          obtain ⟨-, hnum⟩ := List.append_eq_nil_iff.mp hv.symm
          exact hne (List.append_eq_nil_iff.mp hnum).1
        | cons b w =>
          have hspace : isspace b = true := hend b rfl
          simp [hspace] at hnil
  · exact absurd rfl h

/-- A text matches in one way. -/
theorem StatusScan.unique {s lead version sp sign digits t lead' version' sp' sign' digits' t' :
    Bytes} (h : StatusScan s lead version sp sign digits t)
    (h' : StatusScan s lead' version' sp' sign' digits' t') :
    lead = lead' ∧ version = version' ∧ sp = sp' ∧ sign = sign' ∧ digits = digits' := by
  -- each part ends where its kind of byte does
  have hcut := List.append_cancel_left (h.eq.symm.trans h'.eq)
  obtain ⟨hlead, hversion⟩ := run_unique h.lead_spaces
    (head_append h.version_word.1 h.version_word.2 _) h'.lead_spaces
    (head_append h'.version_word.1 h'.version_word.2 _) hcut
  obtain ⟨hversion, hsp⟩ := run_unique (p := fun b => !isspace b)
    (fun b hb => by simpa using h.version_word.2 b hb)
    (head_append h.sp_ne_nil (fun b hb => by simpa using h.sp_spaces b hb) _)
    (fun b hb => by simpa using h'.version_word.2 b hb)
    (head_append h'.sp_ne_nil (fun b hb => by simpa using h'.sp_spaces b hb) _) hversion
  rw [← List.append_assoc sign, ← List.append_assoc sign'] at hsp
  obtain ⟨hsp, hnumber⟩ := run_unique h.sp_spaces (head_append h.number_word.1 h.number_word.2 _)
    h'.sp_spaces (head_append h'.number_word.1 h'.number_word.2 _) hsp
  rw [List.append_assoc, List.append_assoc] at hnumber
  have hsigns : ∀ {sign : Bytes}, IsSign sign → ∀ b ∈ sign, (b == 43 || b == 45) = true := by
    rintro sign (rfl | rfl | rfl) <;> simp
  have hdigit : ∀ {digits : Bytes}, (∀ b ∈ digits, isdigit b = true) →
      ∀ b ∈ digits, (b == 43 || b == 45) = false := by
    intro digits hdig b hb
    obtain ⟨-, hminus, hplus, -⟩ := isdigit_spec (hdig b hb)
    simp [hminus, hplus]
  obtain ⟨hsign, hdigits⟩ := run_unique (hsigns h.sign_cases)
    (head_append h.digits_ne_nil (hdigit h.digits_digits) _) (hsigns h'.sign_cases)
    (head_append h'.digits_ne_nil (hdigit h'.digits_digits) _) hnumber
  obtain ⟨hdigits, -⟩ := run_unique h.digits_digits h.digits_end h'.digits_digits h'.digits_end
    hdigits
  exact ⟨hlead, hversion, hsp, hsign, hdigits⟩

/-- **Status code.**  It is 200 exactly if the format matches with a number that is 200 as an
    `int`. -/
theorem statusCode_eq_200_iff {h : Bytes} (hz : 0 ∉ h) :
    statusCode h = 200 ↔ ∃ lead version sp sign digits t,
      StatusScan h lead version sp sign digits t ∧
        toInt32 (clampLong (signedValue sign digits)) = 200 := by
  rw [statusCode, cstr_eq_self hz]
  by_cases hnone : sscanf statusFormat h = []
  · rw [hnone]
    refine iff_of_false (by simp) ?_
    rintro ⟨lead, version, sp, sign, digits, t, hscan, -⟩
    rw [hscan.sscanf_eq] at hnone
    cases hnone
  · obtain ⟨lead, version, sp, sign, digits, t, hscan⟩ := exists_statusScan hnone
    rw [hscan.sscanf_eq]
    constructor
    · exact fun hv => ⟨lead, version, sp, sign, digits, t, hscan, hv⟩
    · rintro ⟨lead', version', sp', sign', digits', t', hscan', hv⟩
      obtain ⟨-, -, -, rfl, rfl⟩ := hscan.unique hscan'
      exact hv

/-! ### The first line -/

/-- The line is `HTTP/` with a version, white space and a decimal code of value 200. -/
def Success (line : Bytes) : Prop :=
  ∃ version sp code t, StatusScan line [] version sp [] code t ∧ digitsValue code = 200

/-- The first line is that of a successful response, exactly if the format matches inside of it,
    with a number of value 200 and without a sign. -/
theorem success_iff {h : Bytes} (hin : crlf <:+: h) :
    Success (firstLine h) ↔ ∃ version sp code t,
      StatusScan h [] version sp [] code t ∧ ¬ crlf <:+: sp ∧ digitsValue code = 200 := by
  constructor
  · rintro ⟨version, sp, code, t, hscan, hvalue⟩
    obtain ⟨later, hlater⟩ := exists_before_append hin
    have hline : crlf ≠ [] := by decide
    have htail : ∀ b ∈ (t ++ (crlf ++ later)).head?, isdigit b = false := by
      cases t with
      | nil => simp [crlf, isdigit]
      | cons b t => exact fun c hc => hscan.digits_end c (by simpa using hc)
    refine ⟨version, sp, code, t ++ (crlf ++ later), ?_, fun hsp => ?_, hvalue⟩
    · have heq := hscan.eq
      rw [firstLine] at heq
      have hh : h = ascii "HTTP/" ++ ([] ++ (version ++ (sp ++ ([] ++ (code ++
          (t ++ (crlf ++ later))))))) := by
        rw [← hlater, heq]
        simp
      rw [hh]
      exact hscan.with_tail htail
    · -- there is no line end in the first line
      apply not_infix_before hline h
      rw [← firstLine, hscan.eq]
      exact hsp.trans ⟨ascii "HTTP/" ++ version, code ++ t, by simp⟩
  · rintro ⟨version, sp, code, t, hscan, hsp, hvalue⟩
    have hversion : 13 ∉ version := fun hm => absurd (hscan.version_word.2 _ hm) (by decide)
    have hcode : 13 ∉ code := fun hm => absurd (hscan.digits_digits _ hm) (by decide)
    have hnext : ∀ b ∈ (code ++ t).head?, b ≠ 10 :=
      head_append hscan.digits_ne_nil (fun b hb => by
        rintro rfl
        exact absurd (hscan.digits_digits _ hb) (by decide)) t
    -- the line goes on behind the code, which has come without a line end
    have hline : firstLine h =
        ascii "HTTP/" ++ (version ++ (sp ++ (code ++ firstLine t))) := by
      rw [hscan.eq, firstLine, crlf, before_append_of_not_mem (by decide), List.nil_append,
        before_append_of_not_mem hversion, List.nil_append, before_pair_append hsp hnext,
        before_append_of_not_mem hcode]
      rfl
    refine ⟨version, sp, code, firstLine t, ?_, hvalue⟩
    rw [hline]
    refine hscan.with_tail fun b hb => hscan.digits_end b ?_
    obtain ⟨later, hlater⟩ := before_prefix crlf t
    rw [← hlater]
    exact List.mem_head?_append_of_mem_head? hb

/-! ### The decision -/

/-- The format matches a number that is 200 as an `int`, but not as the code of the first line: it
    has passed over white space behind `HTTP/` or over a line end, or the number has a sign or
    another value. -/
def Misread (head : Bytes) : Prop :=
  ∃ lead version sp sign digits t, StatusScan head lead version sp sign digits t ∧
    toInt32 (clampLong (signedValue sign digits)) = 200 ∧
    (lead ≠ [] ∨ crlf <:+: sp ∨ sign ≠ [] ∨ digitsValue digits ≠ 200)

/-- A match inside of the first line is read as it stands. -/
theorem not_misread {h version sp code t : Bytes} (hscan : StatusScan h [] version sp [] code t)
    (hsp : ¬ crlf <:+: sp) (hvalue : digitsValue code = 200) : ¬ Misread h := by
  rintro ⟨lead, version', sp', sign, digits, t', hscan', -, hmis⟩
  obtain ⟨rfl, -, rfl, rfl, rfl⟩ := hscan.unique hscan'
  simp [hsp, hvalue] at hmis

/-- What has arrived scans as 200 if the first line is that of a success, and otherwise if it is
    misread. -/
theorem statusCode_iff_success {h : Bytes} (hz : 0 ∉ h) (hin : crlf <:+: h) :
    (statusCode h = 200 ↔ Success (firstLine h)) ↔ ¬ Misread h := by
  rw [statusCode_eq_200_iff hz, success_iff hin]
  constructor
  · intro hiff hmis
    obtain ⟨lead, version, sp, sign, digits, t, hscan, hv, -⟩ := id hmis
    obtain ⟨version', sp', code', t', hscan', hsp, hvalue⟩ :=
      hiff.mp ⟨lead, version, sp, sign, digits, t, hscan, hv⟩
    exact not_misread hscan' hsp hvalue hmis
  · intro hno
    constructor
    · rintro ⟨lead, version, sp, sign, digits, t, hscan, hv⟩
      have hgood : ¬ (lead ≠ [] ∨ crlf <:+: sp ∨ sign ≠ [] ∨ digitsValue digits ≠ 200) :=
        fun hmis => hno ⟨lead, version, sp, sign, digits, t, hscan, hv, hmis⟩
      simp only [not_or, not_not] at hgood
      obtain ⟨rfl, hsp, rfl, hvalue⟩ := hgood
      exact ⟨version, sp, digits, t, hscan, hsp, hvalue⟩
    · rintro ⟨version, sp, code, t, hscan, -, hvalue⟩
      refine ⟨[], version, sp, [], code, t, hscan, ?_⟩
      rw [signedValue, hvalue]
      decide

/-- **Success.**  On a zero-free response with an end of the headers, however it is cut, the client
    returns 0 exactly if the first line says so, unless the text received by the end of the header
    loop is misread. -/
theorem main_success_iff {argv : List Bytes} {cenv : ClientEnv} {sent r : Bytes} {cs : List Chunk}
    (hconn : connectAndSend argv cenv = .ok sent) (hz : 0 ∉ r) (hin : crlfcrlf <:+: r)
    (hcs : flat cs = r) (hfit : HeadersFit cs) :
    ((∃ exit, Client.main argv cenv (chunksThenClose cs) = .ok exit ∧ exit.code = 0) ↔
        Success (firstLine r)) ↔
      ∀ h rest, upTo crlfcrlf [] (cs.map Chunk.bytes) = some (h, rest) → ¬ Misread h := by
  obtain ⟨h, rest, hup, hpre, hin', hrun⟩ := readResponse_of_complete hz hin hcs hfit
  have hcrlf : crlf <:+: h := (show crlf <:+: crlfcrlf from by decide).trans hin'
  have hline : firstLine r = firstLine h := by
    obtain ⟨later, rfl⟩ := hpre
    exact before_append hcrlf later
  have hcode : (∃ exit, Client.main argv cenv (chunksThenClose cs) = .ok exit ∧ exit.code = 0) ↔
      statusCode h = 200 := by
    rw [Client.main, hconn, hrun]
    by_cases h200 : statusCode h = 200
    · simp [h200]
    · simp [h200]
  rw [hcode, hline, statusCode_iff_success (fun h0 => hz (hpre.subset h0)) hcrlf]
  constructor
  · intro hno h' rest' hup'
    rw [hup] at hup'
    cases hup'
    exact hno
  · exact fun hall => hall h rest hup

/-- A page of two bytes. -/
def pageOfTwo : Chunk := ⟨ascii "HTTP/1.0 200 OK\r\n\r\nhi", by decide, by decide⟩

/-- A page of two bytes. -/
theorem main_success_pageOfTwo :
    (∃ exit, Client.main [[], [], [], ascii "/a"] ⟨true, none, none, none, [], none⟩
        (chunksThenClose [pageOfTwo]) = .ok exit ∧ exit.code = 0) ↔
      Success (firstLine pageOfTwo.bytes) := by
  have hscan : StatusScan pageOfTwo.bytes [] (ascii "1.0") [32] [] (ascii "200")
      (ascii " OK\r\n\r\nhi") :=
    ⟨by decide, by decide, ⟨by decide, by decide⟩, by decide, by decide, Or.inl rfl, by decide,
      by decide, by decide⟩
  have hconn : connectAndSend [[], [], [], ascii "/a"] ⟨true, none, none, none, [], none⟩ =
      .ok (requestStr (ascii "/a")) := by decide
  refine (main_success_iff hconn (by decide) (by decide) (by decide)
    (headersFit_of_length (by decide))).mpr ?_
  have hup : upTo crlfcrlf [] ([pageOfTwo].map Chunk.bytes) = some (pageOfTwo.bytes, []) := by decide
  rw [hup]
  rintro _ _ ⟨⟩
  exact not_misread hscan (by decide) (by decide)

/-- A first line without a code, with a number at the start of the next line. -/
def codeInHeaders : Chunk := ⟨ascii "HTTP/1.0\r\n200: x\r\n\r\n", by decide, by decide⟩

/-- The number is taken for the code, and the client returns 0. -/
theorem main_zero_codeInHeaders :
    (∃ exit, Client.main [[], [], [], ascii "/a"] ⟨true, none, none, none, [], none⟩
        (chunksThenClose [codeInHeaders]) = .ok exit ∧ exit.code = 0) ∧
      ¬ Success (firstLine codeInHeaders.bytes) := by
  refine ⟨⟨⟨0, [], [], requestStr (ascii "/a")⟩, by decide +kernel, rfl⟩, ?_⟩
  rintro ⟨version, sp, code, t, hscan, -⟩
  have hline : ∀ b ∈ firstLine codeInHeaders.bytes, isspace b = false := by decide
  obtain ⟨b, hb⟩ := List.exists_mem_of_ne_nil sp hscan.sp_ne_nil
  have hmem : b ∈ firstLine codeInHeaders.bytes := by
    rw [hscan.eq]
    simp [hb]
  have hspace := hscan.sp_spaces b hb
  rw [hline b hmem] at hspace
  cases hspace

end SimpleHttp
