import Mathlib.Data.Nat.Digits.Lemmas
import SimpleHttp.ClientResponse
import SimpleHttp.RequestDecode

namespace SimpleHttp

open Lib

/-!
# Client and server together

* `okResponse_completes`, `statusLine_okResponse`, `headersFit_of_completes` — the head of the
  server's reply as the client sees it.
* `bodyLoop_complete` — the body loop of a server whose calls do not fail sends the whole file.
* `transfer` — a run without failures delivers the file, or the 404 reply.
-/

/-! ### The server's replies as the client reads them -/

/-- Below 10 ^ k, a number has at most k digits. -/
theorem length_natDecimal_le {n k : Nat} (hk : 0 < k) (h : n < 10 ^ k) :
    (natDecimal n).length ≤ k := by
  unfold natDecimal
  split
  · exact hk
  · rw [List.length_map, List.length_reverse]
    exact (Nat.digits_length_le_iff (by decide) n).mpr h

/-- A file size is printed in at most ten digits and a sign. -/
theorem length_decimal_fileSize (contents : Bytes) :
    (decimal (fileSize contents)).length ≤ 11 := by
  have hlo := Int.le_bmod (x := (contents.length : Int)) (m := 2 ^ 32) (by decide)
  have hhi := Int.bmod_lt (x := (contents.length : Int)) (m := 2 ^ 32) (by decide)
  have habs : (fileSize contents).natAbs < 10 ^ 10 := by
    unfold fileSize toInt32
    omega
  have hlen := length_natDecimal_le (by decide) habs
  unfold decimal
  split
  · rw [List.length_cons]
    omega
  · omega

/-- The head fits `char header[BUFSIZE]`, and `headers` of the client. -/
theorem length_okResponse_le (contents : Bytes) : (okResponse (fileSize contents)).length ≤ 75 := by
  have := length_decimal_fileSize contents
  simp only [okResponse, List.length_append]
  have h1 : (ascii "HTTP/1.0 200 OK\r\n").length = 17 := by decide
  have h2 : (ascii "Content-type: text/plain\r\n").length = 26 := by decide
  have h3 : (ascii "Content-length: ").length = 16 := by decide
  have h4 : (ascii " \r\n\r\n").length = 5 := by decide
  omega

/-- The head of a reply holds no zero. -/
theorem zero_not_mem_okResponse (v : Int) : 0 ∉ okResponse v := by
  have hv : 0 ∉ decimal v := not_mem_decimal v (by decide) (by decide)
  simp only [okResponse, List.mem_append, hv, or_false, not_or]
  decide

/-- A line end that another line follows is passed over. -/
theorem after_line {line : Bytes} (h : 13 ∉ line) {b : UInt8} (hb : b ≠ 13) (s : Bytes) :
    after crlfcrlf (line ++ 13 :: 10 :: b :: s) = after crlfcrlf (b :: s) := by
  rw [after, after, crlfcrlf, findFirst_append_of_not_mem _ _ _ h, findFirst, if_neg,
    findFirst_cons_of_ne _ _ (by decide)]
  simp [hb.symm]

/-- Behind the last line of a head nothing is left. -/
theorem after_last_line {line : Bytes} (h : 13 ∉ line) :
    after crlfcrlf (line ++ crlfcrlf) = some [] := by
  have hmiss : findFirst crlfcrlf (line ++ crlfcrlf) = findFirst crlfcrlf crlfcrlf :=
    findFirst_append_of_not_mem _ _ _ h
  rw [after, hmiss]
  rfl

/-- The end of the head is its only `\r\n\r\n`. -/
theorem okResponse_completes (v : Int) : Completes crlfcrlf (okResponse v) := by
  have hv : 13 ∉ decimal v := not_mem_decimal v (by decide) (by decide)
  have hlast : 13 ∉ 67 :: (ascii "ontent-length: " ++ decimal v ++ [32]) := by
    simp only [List.mem_cons, List.mem_append, hv, or_false, not_or]
    decide
  have heq : okResponse v = ascii "HTTP/1.0 200 OK" ++ 13 :: 10 :: 67 ::
      (ascii "ontent-type: text/plain" ++ 13 :: 10 :: 67 ::
        (ascii "ontent-length: " ++ decimal v ++ [32] ++ crlfcrlf)) := by
    simp [okResponse, ascii, crlfcrlf]
  have hafter : after crlfcrlf (okResponse v) = some [] := by
    rw [heq, after_line (by decide) (by decide), ← List.cons_append,
      after_line (by decide) (by decide)]
    have hend := after_last_line hlast
    exact hend
  obtain ⟨h, heq, hc⟩ := (after_eq_some_iff crlfcrlf_ne_nil _ _).mp hafter
  rwa [heq, List.append_nil]

/-- Whatever follows it, the head starts a response with the code 200. -/
theorem statusLine_okResponse (v : Int) (s : Bytes) :
    ∃ t, StatusLine (okResponse v ++ s) (ascii "1.0") [32] (ascii "200") t := by
  refine ⟨ascii " OK\r\n" ++ (ascii "Content-type: text/plain\r\n" ++ (ascii "Content-length: " ++
    (decimal v ++ (ascii " \r\n\r\n" ++ s)))), ?_, ⟨by decide, by decide⟩, by decide, by decide,
    by decide, by decide, ?_⟩
  · simp [okResponse, ascii]
  · simp [ascii, isdigit]

/-- A head that leaves room for one more chunk fits `headers` however the response is cut. -/
theorem headersFit_of_completes {h b : Bytes} {cs : List Chunk} (hc : Completes crlfcrlf h)
    (hcs : flat cs = h ++ b) (hlen : h.length + (bufSize - 1) ≤ headersSize) : HeadersFit cs := by
  intro text rest hup
  have hpos : 0 < h.length := List.length_pos_iff.mpr (hc.ne_nil crlfcrlf_ne_nil)
  obtain ⟨used, c, hsplit, rfl, -, hshort⟩ := upTo_eq_some hup
  have hchunk : c.length ≤ bufSize - 1 := by
    have hmem : c ∈ cs.map Chunk.bytes := by rw [hsplit]; simp
    obtain ⟨chunk, -, rfl⟩ := List.mem_map.mp hmem
    exact chunk.length_le
  -- what came before the last chunk read did not hold all of `h`
  have hused : used.flatten.length < h.length := by
    rcases hshort with rfl | hno
    · exact hpos
    · by_contra hge
      apply hno
      apply hc.1.isInfix.trans
      rw [List.nil_append]
      apply List.IsPrefix.isInfix
      refine List.prefix_of_prefix_length_le (List.prefix_append h b) ?_ (by omega)
      rw [← hcs, flat, hsplit, List.flatten_append]
      exact List.prefix_append _ _
  simp only [List.nil_append, List.length_append]
  have hbuf : 0 < bufSize := by decide
  omega

/-- The client on the whole 200 reply. -/
theorem readResponse_okResponse {contents : Bytes} {cs : List Chunk} (hz : 0 ∉ contents)
    (hcs : flat cs = okResponse (fileSize contents) ++ contents) :
    readResponse (chunksThenClose cs) = .ok ⟨0, contents, [], []⟩ := by
  obtain ⟨t, hline⟩ := statusLine_okResponse (fileSize contents) contents
  have hc := okResponse_completes (fileSize contents)
  have hlen := length_okResponse_le contents
  have hfit : HeadersFit cs := headersFit_of_completes hc hcs (by
    have : 75 + (bufSize - 1) ≤ headersSize := by decide
    omega)
  have hz' : 0 ∉ okResponse (fileSize contents) ++ contents := by
    rw [List.mem_append, not_or]
    exact ⟨zero_not_mem_okResponse _, hz⟩
  have hin : crlfcrlf <:+: okResponse (fileSize contents) ++ contents :=
    hc.1.isInfix.trans (List.prefix_append _ _).isInfix
  rw [readResponse_of_zeroFree hline hz' hin hcs hfit, if_pos (by decide),
    after_of_completes crlfcrlf_ne_nil hc]
  rfl

/-- The client on the 404 reply. -/
theorem readResponse_notokResponse {cs : List Chunk} (hcs : flat cs = notokResponse) :
    readResponse (chunksThenClose cs) = .ok ⟨-1, [], notokResponse, []⟩ := by
  have hline : StatusLine notokResponse (ascii "1.0") [32] (ascii "404")
      (notokResponse.drop 12) :=
    ⟨by decide, ⟨by decide, by decide⟩, by decide, by decide, by decide, by decide, by decide⟩
  have hfit : HeadersFit cs := headersFit_of_length (by rw [hcs]; decide +kernel)
  rw [readResponse_of_zeroFree hline (by decide) (by decide) hcs hfit, if_neg (by decide)]

/-! ### A run without failures -/

/-- `fread` hands out the whole file in non-empty blocks. -/
structure Blocks (contents : Bytes) (freads : List Nat) : Prop where
  block : ∀ n ∈ freads, 0 < n ∧ n ≤ bufSize
  whole : freads.sum = contents.length

/-- One `send` takes all of `data`. -/
def TakenWhole (data : Bytes) (sends : List SendResult) : Prop :=
  (sendOnce data sends).1 = some data.length

/-- What the server says before the file, or instead of it. -/
def replyHead : Option Bytes → Bytes
  | none => notokResponse
  | some contents => okResponse (fileSize contents)

/-- The one send leaves only results that are accepted. -/
theorem allAccepted_sendOnce {data : Bytes} {sends : List SendResult} (h : AllAccepted sends) :
    AllAccepted (sendOnce data sends).2 := by
  cases sends with
  | nil => exact h
  | cons r sends => cases r <;> exact h.tail

/-- **Body loop.**  A file that is handed out whole has been sent whole when the loop returns 0. -/
theorem bodyLoop_whole (srv : Server) (fd : Fd) (buf rest : Bytes) (freads : List Nat)
    (sends : List SendResult) (hblocks : Blocks rest freads)
    (hret : (bodyLoop srv fd buf rest freads sends).ret = 0) :
    (bodyLoop srv fd buf rest freads sends).sent = rest := by
  fun_induction bodyLoop srv fd buf rest freads sends with
  | case1 buf rest sends =>
    obtain rfl : rest = [] := List.length_eq_zero_iff.mp hblocks.whole.symm
    rfl
  | case2 buf rest n freads sends block hnil =>
    -- a block is still due, so the file is not over and this one is not empty
    have hn := (hblocks.block n List.mem_cons_self).1
    have hsum := hblocks.whole
    have hlen := congrArg List.length hnil
    have hbuf : 0 < bufSize := by decide
    simp only [block, List.length_take, List.length_nil, List.sum_cons] at hlen hsum
    omega
  | case3 buf rest n freads sends block hne buf' loop errno hfail => cases hret
  | case4 buf rest n freads sends block hne buf' loop hok next ih =>
    have hn := hblocks.block n List.mem_cons_self
    have hblock : block.length = n := by
      have hsum := hblocks.whole
      simp only [block, List.length_take, List.sum_cons] at hsum ⊢
      omega
    have hnext : next.sent = rest.drop block.length := by
      refine ih ⟨fun m hm => hblocks.block m (List.mem_cons_of_mem _ hm), ?_⟩ hret
      have hsum := hblocks.whole
      rw [List.sum_cons] at hsum
      rw [List.length_drop]
      omega
    rw [Outcome.sent, sentBytes_block hok, ← Outcome.sent, hnext]
    exact block_append_drop rest (min n bufSize)

/-- Without a failed send the loop returns 0. -/
theorem bodyLoop_ret_of_allAccepted (srv : Server) (fd : Fd) (buf rest : Bytes)
    (freads : List Nat) (sends : List SendResult) (hsends : AllAccepted sends) :
    (bodyLoop srv fd buf rest freads sends).ret = 0 := by
  fun_induction bodyLoop srv fd buf rest freads sends with
  | case1 => rfl
  | case2 => rfl
  | case3 buf rest n freads sends block hne buf' loop errno hfail =>
    rw [failed_sendLoop_of_allAccepted hsends] at hfail
    cases hfail
  | case4 buf rest n freads sends block hne buf' loop hok next ih =>
    exact ih (allAccepted_sendLoop_rest hsends)

/-- Without a failed send the file arrives block by block. -/
theorem bodyLoop_complete (srv : Server) (fd : Fd) (buf rest : Bytes) (freads : List Nat)
    (sends : List SendResult) (hblocks : Blocks rest freads) (hsends : AllAccepted sends) :
    (bodyLoop srv fd buf rest freads sends).sent = rest :=
  bodyLoop_whole srv fd buf rest freads sends hblocks
    (bodyLoop_ret_of_allAccepted srv fd buf rest freads sends hsends)

/-- The reply of a server whose calls do not fail: the head, then the file if there is one. -/
theorem sent_respond (srv : Server) (fs : FileSystem) (env : ConnEnv) (buf filename : Bytes)
    (hhead : TakenWhole (replyHead (fs (cstr filename))) env.sends) (hsends : AllAccepted env.sends)
    (hblocks : ∀ contents, fs (cstr filename) = some contents → Blocks contents env.freads) :
    (respond srv fs env buf filename).sent =
      replyHead (fs (cstr filename)) ++ (fs (cstr filename)).getD [] := by
  cases hfile : fs (cstr filename) with
  | none =>
    rw [hfile] at hhead
    simp only [TakenWhole, replyHead] at hhead
    simp [respond, hfile, send404, hhead, Outcome.sent, sentBytes, replyHead]
  | some contents =>
    rw [hfile] at hhead
    simp only [TakenWhole, replyHead] at hhead
    have hbody := bodyLoop_complete srv env.fileFd buf contents env.freads
      (sendOnce (okResponse (fileSize contents)) env.sends).2 (hblocks contents hfile)
      (allAccepted_sendOnce hsends)
    rw [Outcome.sent] at hbody
    simp [respond, hfile, sendFile, hhead, Outcome.sent, sentBytes, replyHead, hbody]

/-- The client's request is one that the server decodes. -/
theorem requestText_requestStr {p : Bytes} (hne : p ≠ []) (hsp : ∀ b ∈ p, isspace b = false)
    (hlen : p.length ≤ 99) :
    RequestText (requestStr p) (ascii "GET") p (ascii "HTTP/1.0") where
  line := ⟨ascii "\r\n", by simp [requestStr, ascii]⟩
  method_word := ⟨by decide, by decide⟩
  path_word := ⟨hne, hsp⟩
  version_word := ⟨by decide, by decide⟩
  method_le := by decide
  path_le := hlen
  version_le := by decide
  completes := by
    have hline : 13 ∉ ascii "GET " ++ p ++ ascii " HTTP/1.0" := by
      simp only [List.mem_append, not_or]
      exact ⟨⟨by decide, fun h => absurd (hsp _ h) (by decide)⟩, by decide⟩
    obtain ⟨h, heq, hc⟩ := (after_eq_some_iff crlfcrlf_ne_nil _ _).mp (after_last_line hline)
    rw [List.append_nil] at heq
    have hreq : requestStr p = ascii "GET " ++ p ++ ascii " HTTP/1.0" ++ crlfcrlf := by
      simp [requestStr, ascii, crlfcrlf]
    rw [hreq, heq]
    exact hc
  length_le := by
    have h1 : (ascii "GET ").length = 4 := by decide
    have h2 : (ascii " HTTP/1.0\r\n\r\n").length = 13 := by decide
    have h3 : 116 ≤ bufSize - 1 := by decide
    simp only [requestStr, List.length_append]
    omega

/-- The client's calls before the response succeed. -/
structure ClientEnv.Ok (env : ClientEnv) : Prop where
  asprintf : env.asprintf = true
  socket : env.socket = none
  gethostbyname : env.gethostbyname = none
  connect : env.connect = none
  sends : AllAccepted env.sends
  select : env.select = none

/-- Whatever the short sends, the client puts its whole request on the connection. -/
theorem connectAndSend_ok {env : ClientEnv} (h : env.Ok) (prog host port p : Bytes) :
    connectAndSend [prog, host, port, p] env = .ok (requestStr p) := by
  have hfailed : (sendLoop (requestStr p) 0 env.sends).failed = none :=
    failed_sendLoop_of_allAccepted h.sends
  simp only [connectAndSend, h.asprintf, h.socket, h.gethostbyname, h.connect, if_true,
    sendRequest, hfailed, h.select, sentBytes_sendLoop_of_none hfailed, List.drop_zero]

/-- **Transfer.**  The client and `http_server1`, with no call failing: a name that does not open
    gives the 404 reply on stderr and -1, a text file arrives whole on stdout with 0, however
    both streams are cut and whatever the short sends. -/
theorem transfer {p : Bytes} (hne : p ≠ []) (hsp : ∀ b ∈ p, isspace b = false) (hpz : 0 ∉ p)
    (hlen : p.length ≤ 99) (prog host port : Bytes) {fs : FileSystem}
    (htext : ∀ contents, fs (stripSlash p) = some contents → 0 ∉ contents)
    {cenv : ClientEnv} (hclient : cenv.Ok) {env : ConnEnv} (hsends : AllAccepted env.sends)
    (hhead : TakenWhole (replyHead (fs (stripSlash p))) env.sends)
    (hblocks : ∀ contents, fs (stripSlash p) = some contents → Blocks contents env.freads) :
    ∃ request, connectAndSend [prog, host, port, p] cenv = .ok request ∧
      ∀ requestCut later, flat requestCut = request → Fits [] requestCut →
        env.recvs = requestCut.map .data ++ later →
        ∃ out, Server1.handleConnection fs env = .ok out ∧
          ∀ replyCut, flat replyCut = out.sent →
            Client.main [prog, host, port, p] cenv (chunksThenClose replyCut) =
              .ok (match fs (stripSlash p) with
                | none => ⟨-1, [], notokResponse, request⟩
                | some contents => ⟨0, contents, [], request⟩) := by
  have hsent := connectAndSend_ok hclient prog host port p
  refine ⟨requestStr p, hsent, fun requestCut later hcut hfits hrecvs => ?_⟩
  have hz : 0 ∉ requestStr p ++ [] := by
    simp only [requestStr, List.append_nil, List.mem_append, not_or]
    exact ⟨⟨by decide, hpz⟩, by decide⟩
  -- the server: it reads the whole request, and nothing of `later`
  obtain ⟨calls, buf, used, rest, hrun, -, -, -, hquiet, -⟩ :=
    handleConnection_requestText .httpServer1 fs (requestText_requestStr hne hsp hlen) hz
      (by rw [hcut, List.append_nil]) hfits hrecvs
  have hname : cstr (extractFilename p) = stripSlash p :=
    cstr_extractFilename hpz (Nat.lt_succ_of_le hlen)
  have hrespond := sent_respond .httpServer1 fs env buf (extractFilename p)
    (by rwa [hname]) hsends (by rwa [hname])
  refine ⟨_, hrun, fun replyCut hreply => ?_⟩
  rw [Outcome.sent, sentBytes_append, hquiet, List.nil_append, ← Outcome.sent, hrespond, hname]
    at hreply
  -- the client, on what the server has sent
  rw [Client.main, hsent]
  cases hfile : fs (stripSlash p) with
  | none =>
    rw [hfile, replyHead, Option.getD_none, List.append_nil] at hreply
    simp only [readResponse_notokResponse hreply]
  | some contents =>
    rw [hfile, replyHead, Option.getD_some] at hreply
    simp only [readResponse_okResponse (htext contents hfile) hreply]

/-- A server connection that receives the request for `/a` in two pieces, and reads a file in
    blocks of two and three bytes. -/
def helloConn : ConnEnv where
  recvs := [.data ⟨ascii "GET /a HTTP/1.0\r\n\r", by decide, by decide⟩,
    .data ⟨ascii "\n", by decide, by decide⟩]
  fileFd := 5
  freads := [2, 3]
  sends := [.accepted 100, .accepted 1, .accepted 1]

/-- A client whose `send` takes three bytes, then seven, then the rest. -/
def shortSends : ClientEnv := ⟨true, none, none, none, [.accepted 3, .accepted 7], none⟩

/-- The path `/a` and a file of five bytes, with short sends on both sides and two blocks. -/
theorem transfer_hello :
    ∃ request, connectAndSend [[], [], [], ascii "/a"] shortSends = .ok request ∧
      ∀ requestCut later, flat requestCut = request → Fits [] requestCut →
        helloConn.recvs = requestCut.map .data ++ later →
        ∃ out, Server1.handleConnection (fun _ => some (ascii "hello")) helloConn = .ok out ∧
          ∀ replyCut, flat replyCut = out.sent →
            Client.main [[], [], [], ascii "/a"] shortSends (chunksThenClose replyCut) =
              .ok ⟨0, ascii "hello", [], request⟩ := by
  have hsp : ∀ b ∈ ascii "/a", isspace b = false := by decide
  have htext : ∀ contents, some (ascii "hello") = some contents → 0 ∉ contents := by
    rintro _ ⟨⟩
    decide
  have hclient : shortSends.Ok := ⟨rfl, rfl, rfl, rfl, by simp [AllAccepted, shortSends], rfl⟩
  have hblocks : ∀ contents, some (ascii "hello") = some contents →
      Blocks contents helloConn.freads := by
    rintro _ ⟨⟩
    exact ⟨by decide, by decide⟩
  have hsends : AllAccepted helloConn.sends := by simp [AllAccepted, helloConn]
  have hhead : TakenWhole (replyHead (some (ascii "hello"))) helloConn.sends := by rfl
  exact transfer (by decide) hsp (by decide) (by decide) [] [] [] htext hclient hsends hhead hblocks

end SimpleHttp
