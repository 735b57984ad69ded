import SimpleHttp.Transfer

namespace SimpleHttp

open Lib

/-!
# A reply that is cut short

The server leaves its body loop when `fread` returns nothing and closes the connection the same
way after an error as after success, and the client takes the close for the end of the file.

* `bodyLoop_delivers_iff` — for which results of its calls the body loop sends the whole file.
* `sendFile_sent` — what the server sends is a part of the head and then a part of the file.
* `exit_zero_whole_iff` — when a return value of 0 means that the whole file has arrived.
-/

/-- The results of the `fread` and `send` calls deliver all of `rest`: the blocks read cover it,
    and no send of a block fails. -/
def Delivers : Bytes → List Nat → List SendResult → Prop
  | rest, [], _ => rest = []
  | rest, n :: freads, sends =>
      let block := rest.take (min n bufSize)
      if block = [] then rest = []
      else
        (sendLoop block 0 sends).failed = none ∧
          Delivers (rest.drop block.length) freads (sendLoop block 0 sends).rest

/-- Whether the calls deliver a file can be computed. -/
instance decidableDelivers : (rest : Bytes) → (freads : List Nat) → (sends : List SendResult) →
    Decidable (Delivers rest freads sends)
  | rest, [], _ => inferInstanceAs (Decidable (rest = []))
  | rest, n :: freads, sends =>
      have := decidableDelivers (rest.drop (rest.take (min n bufSize)).length) freads
        (sendLoop (rest.take (min n bufSize)) 0 sends).rest
      inferInstanceAs (Decidable (if rest.take (min n bufSize) = [] then rest = [] else
        (sendLoop (rest.take (min n bufSize)) 0 sends).failed = none ∧
          Delivers (rest.drop (rest.take (min n bufSize)).length) freads
            (sendLoop (rest.take (min n bufSize)) 0 sends).rest))

/-- The server's calls deliver the file: the head is taken whole, then the blocks of the file. -/
structure Complete (env : ConnEnv) (contents : Bytes) : Prop where
  head : TakenWhole (okResponse (fileSize contents)) env.sends
  body : Delivers contents env.freads (sendOnce (okResponse (fileSize contents)) env.sends).2

/-- The client does not come to its first `recv`: it has not been given three arguments, or one of
    its calls before that fails. -/
def GivesUp (argv : List Bytes) (env : ClientEnv) : Prop :=
  argv.length ≠ 4 ∨ env.asprintf = false ∨ env.socket ≠ none ∨ env.gethostbyname ≠ none ∨
    env.connect ≠ none ∨ (sendLoop (requestStr (argv.getD 3 [])) 0 env.sends).failed ≠ none ∨
    env.select ≠ none

/-- What arrives does not read as a 200 response, and does not overrun `headers`. -/
def Refused (cs : List Chunk) : Prop :=
  match upTo crlfcrlf [] (texts cs) with
  | none => (kept cs).length < headersSize
  | some (headers, _) => headers.length < headersSize ∧ statusCode headers ≠ 200

/-- A response is refused where the client does not return 0. -/
theorem refused_iff (cs : List Chunk) :
    Refused cs ↔ ∃ exit, reply (texts cs) = .ok exit ∧ exit.code ≠ 0 := by
  rw [Refused, reply]
  cases upTo crlfcrlf [] (texts cs) with
  | none =>
    show _ ↔ ∃ exit, (if (kept cs).length < headersSize then _ else _) = _ ∧ _
    by_cases hlen : (kept cs).length < headersSize
    · simp [hlen, die]
    · simp [hlen]
  | some p =>
    obtain ⟨headers, rest⟩ := p
    by_cases hlen : headers.length < headersSize
    · by_cases hcode : statusCode headers = 200
      · simp [hlen, hcode]
      · simp [hlen, hcode]
    · simp [hlen]

/-- No more is accepted than was offered. -/
theorem sendOnce_le {data : Bytes} {sends : List SendResult} {n : Nat}
    (h : (sendOnce data sends).1 = some n) : n ≤ data.length := by
  cases sends with
  | nil => cases h; exact Nat.le_refl _
  | cons r sends =>
    cases r with
    | failed errno => cases h
    | accepted m => cases h; exact Nat.min_le_right _ _

/-- **Body loop.**  It sends the whole file exactly if the results of its calls deliver it. -/
theorem bodyLoop_delivers_iff (srv : Server) (fd : Fd) (buf rest : Bytes) (freads : List Nat)
    (sends : List SendResult) :
    (bodyLoop srv fd buf rest freads sends).sent = rest ↔ Delivers rest freads sends := by
  fun_induction bodyLoop srv fd buf rest freads sends with
  | case1 => simp [Outcome.sent, sentBytes, Delivers, eq_comm]
  | case2 buf rest n freads sends block hnil =>
    simp only [Delivers]
    rw [if_pos hnil]
    simp [Outcome.sent, sentBytes, eq_comm]
  | case3 buf rest n freads sends block hne buf' loop errno hfail =>
    have hlt := sentBytes_sendLoop_of_failed hfail
    simp only [Delivers]
    rw [if_neg hne]
    constructor
    · -- less than the block is sent, and nothing behind it
      intro heq
      have hlen := congrArg List.length heq
      have hblock : block.length ≤ rest.length := List.length_take_le' _ _
      simp only [buf', take_poke_block] at hlt
      simp [Outcome.sent, sentBytes, loop, buf'] at hlen
      omega
    · rintro ⟨hok, -⟩
      simp only [loop, buf', take_poke_block, block] at hfail
      rw [hok] at hfail
      cases hfail
  | case4 buf rest n freads sends block hne buf' loop hok next ih =>
    have hloop : loop = sendLoop block 0 sends := by simp only [loop, buf', take_poke_block]
    simp only [Delivers]
    rw [if_neg hne, ← hloop, Outcome.sent, sentBytes_block hok, ← Outcome.sent, ← ih]
    have hrest : block ++ rest.drop block.length = rest := block_append_drop rest (min n bufSize)
    -- behind a block that is sent whole, it is up to the rest
    constructor
    · intro heq
      rw [← hrest] at heq
      exact ⟨hok, List.append_cancel_left (heq.trans (by rw [hrest]))⟩
    · rintro ⟨-, heq⟩
      rw [heq, hrest]

/-- **What the server sends.**  A part of the head and then a part of the file, both whole exactly
    if its calls deliver the file. -/
theorem sendFile_sent (srv : Server) (env : ConnEnv) (buf contents : Bytes) :
    ∃ k s, (sendFile srv env buf contents).sent = (okResponse (fileSize contents)).take k ++ s ∧
      s <+: contents ∧
      (Complete env contents ↔ (okResponse (fileSize contents)).length ≤ k ∧ s = contents) := by
  have hne := List.length_pos_iff.mpr
    ((okResponse_completes (fileSize contents)).ne_nil crlfcrlf_ne_nil)
  cases hsend : (sendOnce (okResponse (fileSize contents)) env.sends).1 with
  | none =>
    -- the head is refused, and nothing is sent at all
    refine ⟨0, [], by simp [sendFile, hsend, Outcome.sent, sentBytes], List.nil_prefix, ?_⟩
    constructor
    · intro h
      have := h.head
      rw [TakenWhole, hsend] at this
      cases this
    · intro h
      omega
  | some n =>
    have hn := sendOnce_le hsend
    have hbody := bodyLoop_delivers_iff srv env.fileFd buf contents env.freads
      (sendOnce (okResponse (fileSize contents)) env.sends).2
    refine ⟨n, _, by simp only [sendFile, hsend]; rfl,
      (prefix_sent_bodyLoop ..).trans (freadBytes_bodyLoop ..), ?_⟩
    constructor
    · intro h
      have hhead := h.head
      rw [TakenWhole, hsend] at hhead
      exact ⟨(Option.some.inj hhead).ge, hbody.mpr h.body⟩
    · rintro ⟨hk, hs⟩
      refine ⟨?_, hbody.mp hs⟩
      rw [TakenWhole, hsend]
      exact congrArg some (by omega)

/-- A run of the server that opens a file sends what the 200 branch sends. -/
theorem handleConnection_opened {srv : Server} {fs : FileSystem} {env : ConnEnv} {out : Outcome}
    {name contents : Bytes} (hrun : handleConnection srv fs env = .ok out)
    (hopen : fopened out.calls = [name]) (hfile : fs name = some contents) :
    ∃ buf, out.sent = (sendFile srv env buf contents).sent := by
  obtain ⟨reads, buf, filename, -, hquiet, rfl, hcalls, -⟩ := handleConnection_reaches hrun hopen
  refine ⟨buf, ?_⟩
  rw [Outcome.sent, hcalls, sentBytes_append, hquiet]
  simp only [respond, hfile]
  rfl

/-- If what follows the first `\r\n\r\n` on the connection is the whole file, nothing is missing
    in front of it either. -/
theorem whole_of_after {head contents s : Bytes} {k : Nat} (hc : Completes crlfcrlf head)
    (hs : s <+: contents) (h : after crlfcrlf (head.take k ++ s) = some contents) :
    head.length ≤ k ∧ s = contents := by
  obtain ⟨h₀, heq, hc₀⟩ := (after_eq_some_iff crlfcrlf_ne_nil _ _).mp h
  have hlen := congrArg List.length heq
  have hsle := hs.length_le
  simp only [List.length_append, List.length_take] at hlen
  have hpre : h₀ <+: head.take k :=
    List.prefix_of_prefix_length_le (heq ▸ List.prefix_append _ _) (List.prefix_append _ s)
      (by rw [List.length_take]; omega)
  have hle := hpre.length_le
  rw [List.length_take] at hle
  -- `\r\n\r\n` only comes at the end of the head
  have hhead : head.length ≤ h₀.length := by
    by_contra hlt
    apply hc.2
    apply hc₀.1.isInfix.trans
    apply List.IsPrefix.isInfix
    exact List.prefix_of_prefix_length_le (hpre.trans (List.take_prefix _ _))
      (List.dropLast_prefix _) (by rw [List.length_dropLast]; omega)
  exact ⟨by omega, hs.eq_of_length_le (by omega)⟩

/-- To give up is to exit before the response. -/
theorem givesUp_iff (argv : List Bytes) (env : ClientEnv) :
    GivesUp argv env ↔ ∃ exit, connectAndSend argv env = .error exit := by
  unfold connectAndSend
  split
  · rename_i prog host port serverPath
    unfold GivesUp
    cases env.asprintf with
    | false => simp
    | true =>
      cases env.socket <;> cases env.gethostbyname <;> cases env.connect <;> simp [sendRequest]
      cases (sendLoop (requestStr serverPath) 0 env.sends).failed <;> cases env.select <;> simp
  · rename_i hargs
    have hlen : argv.length ≠ 4 := by
      intro h
      obtain ⟨prog, host, port, path, rfl⟩ := List.length_eq_four.mp h
      exact hargs prog host port path rfl
    exact ⟨fun _ => ⟨_, rfl⟩, fun _ => Or.inl hlen⟩

/-- To exit before the response is to exit with -1. -/
theorem code_of_connectAndSend_error {argv : List Bytes} {env : ClientEnv} {exit : Exit}
    (h : connectAndSend argv env = .error exit) : exit.code = -1 := by
  unfold connectAndSend at h
  split at h
  · split at h
    · split at h
      · cases h; rfl
      · cases h; rfl
      · cases h; rfl
      · simp only [sendRequest] at h
        split at h
        · cases h; rfl
        · cases h; rfl
        · cases h
    · cases h; rfl
  · cases h; rfl

/-- **What a return value of 0 tells.**  The client's run is defined and a 0 means that the whole
    file is on stdout, exactly if the client gives up before it reads, the server's calls deliver
    the whole file, or what arrives does not read as a 200 response. -/
theorem exit_zero_whole_iff {fs : FileSystem} {env : ConnEnv} {out : Outcome}
    {name contents : Bytes} (hrun : Server1.handleConnection fs env = .ok out)
    (hopen : fopened out.calls = [name]) (hfile : fs name = some contents) (hz : 0 ∉ contents)
    (argv : List Bytes) (cenv : ClientEnv) {replyCut : List Chunk}
    (hreply : flat replyCut = out.sent) :
    (∃ exit, Client.main argv cenv (chunksThenClose replyCut) = .ok exit ∧
        (exit.code = 0 → exit.stdout = contents)) ↔
      GivesUp argv cenv ∨ Complete env contents ∨ Refused replyCut := by
  obtain ⟨buf, hsent⟩ := handleConnection_opened hrun hopen hfile
  obtain ⟨k, s, hsplit, hs, hiff⟩ := sendFile_sent .httpServer1 env buf contents
  rw [givesUp_iff, hiff]
  -- what arrives: a part of the head, and behind a whole head a part of the file
  have hflat : flat replyCut = (okResponse (fileSize contents)).take k ++ s := by
    rw [hreply, hsent, hsplit]
  -- there is no zero byte in it, so the client reads all of it
  have hkept : kept replyCut = (okResponse (fileSize contents)).take k ++ s := by
    rw [← hflat]
    apply kept_eq
    rw [hflat, List.mem_append, not_or]
    exact ⟨fun h => zero_not_mem_okResponse _ (List.mem_of_mem_take h), fun h => hz (hs.subset h)⟩
  rw [Client.main]
  cases hconn : connectAndSend argv cenv with
  | error exit =>
    refine ⟨fun _ => Or.inl ⟨exit, rfl⟩, fun _ => ⟨exit, rfl, fun h0 => ?_⟩⟩
    rw [code_of_connectAndSend_error hconn] at h0
    cases h0
  | ok sent =>
    rw [readResponse_data, refused_iff]
    constructor
    · -- with 0 and the file on stdout, the file is what follows the first `\r\n\r\n`
      rintro ⟨exit, hexit, hzero⟩
      cases hr : reply (texts replyCut) with
      | error u => rw [hr] at hexit; cases hexit
      | ok e =>
        rw [hr] at hexit
        cases hexit
        rcases reply_exit hr with ⟨-, hcode, hafter, -⟩ | ⟨-, hcode, -⟩
        · rw [hkept] at hafter
          obtain hall : e.stdout = contents := hzero hcode
          rw [hall] at hafter
          exact Or.inr (Or.inl (whole_of_after (okResponse_completes _) hs hafter))
        · exact Or.inr (Or.inr ⟨e, rfl, by rw [hcode]; decide⟩)
    · rintro (⟨exit, h⟩ | ⟨hk, rfl⟩ | ⟨e, hr, hcode⟩)
      · cases h
      · rw [List.take_of_length_le hk] at hflat
        rw [← readResponse_data, readResponse_okResponse hz hflat]
        exact ⟨_, rfl, fun _ => rfl⟩
      · rw [hr]
        exact ⟨_, rfl, fun h0 => absurd h0 hcode⟩

/-- A connection on which `/a` is asked for, with a file that is read in the blocks given. -/
def readInBlocks (freads : List Nat) : ConnEnv := ⟨[.data requestForA], 5, freads, []⟩

/-- The head of the reply for a file of three bytes, and `body`. -/
def replyWith (body : Bytes) (h : body.length ≤ 3) : Chunk where
  bytes := okResponse (fileSize (ascii "abc")) ++ body
  nonempty h := (okResponse_completes _).ne_nil crlfcrlf_ne_nil (List.append_eq_nil_iff.mp h).1
  length_le := by
    have hhead := length_okResponse_le (ascii "abc")
    have hbuf : 78 ≤ bufSize - 1 := by decide
    rw [List.length_append]
    omega

/-- Read in blocks of one and two bytes, `abc` arrives whole. -/
theorem exit_zero_whole_abc :
    ∃ exit, Client.main [[], [], [], ascii "/a"] ⟨true, none, none, none, [], none⟩
        (chunksThenClose [replyWith (ascii "abc") (by decide)]) = .ok exit ∧
      (exit.code = 0 → exit.stdout = ascii "abc") := by
  have hrun : Server1.handleConnection (fun _ => some (ascii "abc")) (readInBlocks [1, 2]) =
      .ok ⟨[.recv 1023 (some (ascii "GET /a HTTP/1.0\r\n\r\n")), .fopen (ascii "a") (some 5),
        .send (okResponse (fileSize (ascii "abc")))
          (some (okResponse (fileSize (ascii "abc"))).length),
        .fread (ascii "a"), .send (ascii "a") (some 1), .fread (ascii "bc"),
        .send (ascii "bc") (some 2), .fread [], .fclose 5], 0⟩ := rfl
  exact (exit_zero_whole_iff hrun rfl rfl (by decide) _ _
    (by decide +kernel)).mpr (Or.inr (Or.inl ⟨rfl, by decide⟩))

/-- The second `fread` returns nothing: the client returns 0 with one byte of `abc` on stdout. -/
theorem exit_zero_short :
    ∃ out, Server1.handleConnection (fun _ => some (ascii "abc")) (readInBlocks [1]) = .ok out ∧
      flat [replyWith (ascii "a") (by decide)] = out.sent ∧
      Client.main [[], [], [], ascii "/a"] ⟨true, none, none, none, [], none⟩
        (chunksThenClose [replyWith (ascii "a") (by decide)]) =
          .ok ⟨0, ascii "a", [], requestStr (ascii "/a")⟩ :=
  ⟨_, rfl, by decide +kernel, by decide +kernel⟩

end SimpleHttp
