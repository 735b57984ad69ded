import SimpleHttp.Reply

namespace SimpleHttp

open Lib

/-!
# Well-formed requests are decoded under every segmentation

* `RequestText q method path version` — the text of a request that fits the server's arrays.
* `parseRequest_requestText` — its parse, whatever follows it in the buffer.
* `handleConnection_requestText` — a server that receives such a text, cut in any way and with
  anything behind it, stops receiving with the chunk that completes it and goes on to the reply
  for its path.
* `handleConnection_decodes` — the same, as what is received and what `fopen` is asked for.
-/

/-- The text of a request: three words that fit their arrays on the first line, lines that follow
    it, and the end of the headers, which is the end of the text and nowhere before. -/
structure RequestText (q method path version : Bytes) : Prop where
  line : ∃ lines, q = method ++ 32 :: (path ++ 32 :: (version ++ 13 :: 10 :: lines))
  method_word : IsWord method
  path_word : IsWord path
  version_word : IsWord version
  method_le : method.length ≤ 9
  path_le : path.length ≤ 99
  version_le : version.length ≤ 9
  completes : Completes crlfcrlf q
  length_le : q.length ≤ bufSize - 1

/-- A text that the reader stops with, in a stream that starts with `q`, starts with `q`. -/
theorem upTo_requestText {q extra h : Bytes} {cs rest : List Bytes}
    (hq : Completes crlfcrlf q) (hcs : cs.flatten = q ++ extra)
    (hup : upTo crlfcrlf [] cs = some (h, rest)) : ∃ e, h = q ++ e := by
  obtain ⟨b, hb, hafter⟩ := after_upTo hup
  rw [List.nil_append, hcs, after_of_completes crlfcrlf_ne_nil hq] at hafter
  obtain ⟨h₀, rfl, hcomp⟩ := (after_eq_some_iff crlfcrlf_ne_nil _ _).mp hb
  -- the text read and `q` leave the same behind the first end of the headers
  have hflat := upTo_flatten hup
  rw [List.nil_append, hcs, Option.some.inj hafter, ← List.append_assoc] at hflat
  exact ⟨b, by rw [List.append_cancel_right (List.append_cancel_right hflat)]⟩

/-- **Parse.**  The words of the first line are the request, whatever the buffer holds behind it. -/
theorem parseRequest_requestText {q method path version e buf : Bytes}
    (hq : RequestText q method path version) (hbuf : cstr buf = q ++ e) :
    ∃ req, parseRequest buf = .ok (some req) ∧ req.path = path := by
  obtain ⟨lines, hline⟩ := hq.line
  have hscan : sscanf requestFormat (cstr buf) = [.str method, .str path, .str version] := by
    have hend : EndsWord (13 :: 10 :: (lines ++ e)) := by
      intro b hb
      obtain rfl : 13 = b := by simpa using hb
      decide
    rw [hbuf, hline]
    simpa using sscanf_request hq.method_word hq.path_word hq.version_word hend
  have hfit : method.length < methodSize ∧ path.length < filenameSize ∧
      version.length < versionSize :=
    ⟨Nat.lt_succ_of_le hq.method_le, Nat.lt_succ_of_le hq.path_le,
      Nat.lt_succ_of_le hq.version_le⟩
  refine ⟨⟨method, path, version, hfit.1, hfit.2.1, hfit.2.2⟩, ?_, rfl⟩
  simp only [parseRequest, hscan]
  rw [dif_pos hfit]

/-- **Decoding.**  Whatever way a request and anything behind it reach the server, it reads the
    shortest run of chunks that contains the request and replies for the request's path. -/
theorem handleConnection_requestText (srv : Server) (fs : FileSystem) {env : ConnEnv}
    {q method path version extra : Bytes} {cs : List Chunk} {results : List RecvResult}
    (hq : RequestText q method path version) (hz : 0 ∉ q ++ extra) (hcs : flat cs = q ++ extra)
    (hfits : Fits [] cs) (henv : env.recvs = cs.map .data ++ results) :
    ∃ calls buf used rest, handleConnection srv fs env = .ok
        ⟨calls ++ (respond srv fs env buf (extractFilename path)).calls,
          (respond srv fs env buf (extractFilename path)).ret⟩ ∧
      cs = used ++ rest ∧ received calls = used.map (fun c => some c.bytes) ∧
      fopened calls = [] ∧ sentBytes calls = [] ∧ crlfcrlf <:+: flat used ∧
      ∀ pre c, used = pre ++ [c] → ¬ crlfcrlf <:+: flat pre := by
  have hslack : ([] : Bytes).length + clearBuf.length = bufSize := by simp [clearBuf]
  cases hup : upTo crlfcrlf [] (cs.map Chunk.bytes) with
  | none =>
    rw [upTo_eq_none_iff _ _ _ (by decide), List.nil_append, ← flat, hcs] at hup
    exact absurd (hq.completes.1.isInfix.trans (List.prefix_append _ _).isInfix) hup
  | some p =>
    obtain ⟨h, rest⟩ := p
    obtain ⟨calls, buf, hread, hbuf, hopen, hsent, used, hused, hrecv⟩ :=
      readLoop_upTo srv results (by simpa [hcs] using hz) hslack (by decide) hfits hup
    rw [List.nil_append, List.length_nil, ← henv] at hread
    obtain ⟨e, he⟩ := upTo_requestText hq.completes hcs hup
    obtain ⟨req, hparse, hpath⟩ := parseRequest_requestText hq (hbuf.trans he)
    obtain ⟨us, rs, rfl, hus, -⟩ := List.map_eq_append_iff.mp hused
    -- what was read is the shortest run that contains the end of the headers
    obtain ⟨used', c, hsplit, hh, hin, hshort⟩ := upTo_eq_some hup
    have hused' : used = used' ++ [c] := by
      rw [hused, show used' ++ c :: rest = (used' ++ [c]) ++ rest by simp] at hsplit
      exact List.append_cancel_right hsplit
    refine ⟨calls, buf, us, rs, ?_, rfl, ?_, hopen, hsent, ?_, ?_⟩
    · rw [handleConnection_parsed fs hread hparse, hpath]
    · rw [hrecv, ← hus, List.map_map]
      rfl
    · rw [flat, hus, hused']
      simpa [hh] using hin
    · intro pre d hpre hcon
      have hmap : pre.map Chunk.bytes = used' := by
        have : pre.map Chunk.bytes ++ [d.bytes] = used' ++ [c] := by
          rw [← hused', ← hus, hpre, List.map_append]
          rfl
        exact (List.append_inj' this rfl).1
      rcases hshort with hnil | hno
      · rw [flat, hmap, hnil] at hcon
        exact absurd hcon (by decide)
      · rw [flat, hmap] at hcon
        exact hno (by simpa using hcon)

/-- **Requests are decoded under every segmentation.**  `handle_connection` receives the chunks up
    to the first that completes the end of the headers and no more, and passes `fopen` the path
    without its one leading slash. -/
theorem handleConnection_decodes (srv : Server) (fs : FileSystem) {env : ConnEnv}
    {q method path version extra : Bytes} {cs : List Chunk} {results : List RecvResult}
    (hq : RequestText q method path version) (hz : 0 ∉ q ++ extra) (hcs : flat cs = q ++ extra)
    (hfits : Fits [] cs) (henv : env.recvs = cs.map .data ++ results) :
    ∃ out used c rest, handleConnection srv fs env = .ok out ∧ cs = used ++ c :: rest ∧
      received out.calls = (used ++ [c]).map (fun c => some c.bytes) ∧
      crlfcrlf <:+: flat (used ++ [c]) ∧ ¬ crlfcrlf <:+: flat used ∧
      fopened out.calls = [stripSlash path] := by
  obtain ⟨calls, buf, us, rest, hrun, rfl, hrecv, hopen, -, hin, hshort⟩ :=
    handleConnection_requestText srv fs hq hz hcs hfits henv
  have hpath : 0 ∉ path := by
    obtain ⟨lines, rfl⟩ := hq.line
    exact fun h => hz (by simp [h])
  rcases List.eq_nil_or_concat us with rfl | ⟨used, c, rfl⟩
  · exact absurd hin (by decide)
  · rw [List.concat_eq_append] at *
    refine ⟨_, used, c, rest, hrun, by simp, ?_, hin, hshort used c rfl, ?_⟩
    · rw [received_append, received_respond, List.append_nil, hrecv]
    · rw [fopened_append, hopen, fopened_respond, List.nil_append,
        cstr_extractFilename hpath (Nat.lt_succ_of_le hq.path_le)]

/-- `GET /a HTTP/1.0` with a header line, cut inside its end, and with a byte behind it. -/
theorem handleConnection_decodes_page :
    let cs : List Chunk := [⟨ascii "GET /a HTTP/1.0\r\nHost: b\r\n\r", by decide, by decide⟩,
      ⟨ascii "\n!", by decide, by decide⟩]
    ∃ out used c rest,
      handleConnection .httpServer2 (fun _ => none) ⟨cs.map .data ++ [.closed], 5, [], []⟩ =
        .ok out ∧
      cs = used ++ c :: rest ∧ received out.calls = (used ++ [c]).map (fun c => some c.bytes) ∧
      crlfcrlf <:+: flat (used ++ [c]) ∧ ¬ crlfcrlf <:+: flat used ∧
      fopened out.calls = [stripSlash (ascii "/a")] := by
  intro cs
  have hq : RequestText (ascii "GET /a HTTP/1.0\r\nHost: b\r\n\r\n") (ascii "GET") (ascii "/a")
      (ascii "HTTP/1.0") :=
    ⟨⟨ascii "Host: b\r\n\r\n", by decide⟩, ⟨by decide, by decide⟩, ⟨by decide, by decide⟩,
      ⟨by decide, by decide⟩, by decide, by decide, by decide, ⟨by decide, by decide⟩, by decide⟩
  have hcs : flat cs = ascii "GET /a HTTP/1.0\r\nHost: b\r\n\r\n" ++ ascii "!" := by decide
  exact handleConnection_decodes .httpServer2 (fun _ => none) hq (by decide) hcs
    (fits_of_length (by decide)) rfl

end SimpleHttp
