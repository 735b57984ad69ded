import SimpleHttp.Accounting
import SimpleHttp.Transfer

namespace SimpleHttp

open Lib

/-!
# Many clients of one server

* `ClientOn fs env p` — on the connection `env`, `http_client` asks for `p` and no call fails.
* `ClientOn.handled`, `ClientOn.received` — the server's half of the transfer and the client's.
* `serverLoop_delivers` — whatever the other connections do and however the clients interleave,
  each of these clients ends with the file it has asked for.
-/

/-- The calls of a server on a connection to `http_client`, started with the path `p`. -/
structure ClientOn (fs : FileSystem) (env : ConnEnv) (p : Bytes) : Prop where
  ne_nil : p ≠ []
  word : ∀ b ∈ p, isspace b = false
  zero_notMem : 0 ∉ p
  length_le : p.length ≤ 99
  /-- The request arrives, in pieces. -/
  request : ∃ cut later, flat cut = requestStr p ∧ Fits [] cut ∧ env.recvs = cut.map .data ++ later
  sends : AllAccepted env.sends
  head : TakenWhole (replyHead (fs (stripSlash p))) env.sends
  blocks : ∀ contents, fs (stripSlash p) = some contents → Blocks contents env.freads
  text : ∀ contents, fs (stripSlash p) = some contents → 0 ∉ contents

/-- How the client ends: with the file, or with the reply that there is none. -/
def downloaded (fs : FileSystem) (p : Bytes) : Exit :=
  match fs (stripSlash p) with
  | none => ⟨-1, [], notokResponse, requestStr p⟩
  | some contents => ⟨0, contents, [], requestStr p⟩

/-- Where no send fails, the head of the reply is sent. -/
theorem sendOnce_fst_ne_none {data : Bytes} {sends : List SendResult} (h : AllAccepted sends) :
    (sendOnce data sends).1 ≠ none := by
  cases sends with
  | nil => simp [sendOnce]
  | cons r sends =>
    cases r with
    | accepted n => simp [sendOnce]
    | failed errno => simp [AllAccepted] at h

/-- A reply is a success when no `send` fails. -/
theorem respond_ret (srv : Server) (fs : FileSystem) {env : ConnEnv} (buf filename : Bytes)
    (hsends : AllAccepted env.sends) : (respond srv fs env buf filename).ret = 0 := by
  cases hfile : fs (cstr filename) with
  | none =>
    simp only [respond, hfile, send404]
    split
    · rename_i hnone
      exact absurd hnone (sendOnce_fst_ne_none hsends)
    · rfl
  | some contents =>
    simp only [respond, hfile, sendFile]
    split
    · rename_i hnone
      exact absurd hnone (sendOnce_fst_ne_none hsends)
    · exact bodyLoop_ret_of_allAccepted _ _ _ _ _ _ (allAccepted_sendOnce hsends)

variable {fs : FileSystem} {env : ConnEnv} {p : Bytes}

/-- **The server's half.** -/
theorem ClientOn.handled (h : ClientOn fs env p) (srv : Server) :
    ∃ out, handleConnection srv fs env = .ok out ∧ out.ret = 0 ∧
      out.sent = replyHead (fs (stripSlash p)) ++ (fs (stripSlash p)).getD [] := by
  obtain ⟨cut, later, hcut, hfits, hrecvs⟩ := h.request
  have hz : 0 ∉ requestStr p ++ [] := by
    simp only [requestStr, List.append_nil, List.mem_append, not_or]
    exact ⟨⟨by decide, h.zero_notMem⟩, by decide⟩
  have hflat : flat cut = requestStr p ++ [] := by rw [hcut, List.append_nil]
  have hrequest := requestText_requestStr h.ne_nil h.word h.length_le
  obtain ⟨calls, buf, used, rest, hrun, -, -, -, hquiet, -⟩ :=
    handleConnection_requestText srv fs hrequest hz hflat hfits hrecvs
  have hname : cstr (extractFilename p) = stripSlash p :=
    cstr_extractFilename h.zero_notMem (Nat.lt_succ_of_le h.length_le)
  have hhead := h.head
  have hblocks := h.blocks
  rw [← hname] at hhead hblocks
  have hsent := sent_respond srv fs env buf (extractFilename p) hhead h.sends hblocks
  refine ⟨_, hrun, respond_ret srv fs buf (extractFilename p) h.sends, ?_⟩
  rw [Outcome.sent, sentBytes_append, hquiet, List.nil_append, ← Outcome.sent, hsent, hname]

/-- **The client's half.** -/
theorem ClientOn.received (h : ClientOn fs env p) {cenv : ClientEnv} (hclient : cenv.Ok)
    (prog host port : Bytes) {replyCut : List Chunk}
    (hreply : flat replyCut = replyHead (fs (stripSlash p)) ++ (fs (stripSlash p)).getD []) :
    Client.main [prog, host, port, p] cenv (chunksThenClose replyCut) =
      .ok (downloaded fs p) := by
  rw [Client.main, connectAndSend_ok hclient, downloaded]
  cases hfile : fs (stripSlash p) with
  | none =>
    rw [hfile, replyHead, Option.getD_none, List.append_nil] at hreply
    simp only [readResponse_notokResponse hreply]
  | some contents =>
    rw [hfile, replyHead, Option.getD_some] at hreply
    simp only [readResponse_okResponse (h.text contents hfile) hreply]

/-- **Delivery.**  In every run of `http_server2` that stays defined, and whose last `select` reports
    every connection that waits and not the listening socket, every accepted client has been served
    with success, and ends with its file or with the 404 reply, whatever else is sent on the other
    connections. -/
theorem serverLoop_delivers {w : World} {base : Finset Fd} (hbase : w.sock ∈ base)
    {rounds : List RoundEnv} {ready : Finset Fd} {accept : Option Fd} {s : State}
    (hrun : serverLoop w (rounds ++ [⟨some ready, accept⟩]) = .ok s)
    (hfresh : FreshLog base s.log) (hsock : w.sock ∉ ready)
    (hready : ∀ m, serverLoop w rounds = .ok m → held m.connections ⊆ ready)
    {id : ConnId} (hid : id < s.accepted) (hclient : ClientOn w.fs (w.conn id) p) :
    ∃ sent, (some id, sent, 0) ∈ served s.log ∧
      ∀ (prog host port : Bytes) (cenv : ClientEnv), cenv.Ok →
        ∀ replyCut, flat replyCut = sent →
          Client.main [prog, host, port, p] cenv (chunksThenClose replyCut) =
            .ok (downloaded w.fs p) := by
  obtain ⟨-, hhandled⟩ := drained_of_serverLoop hbase hrun hfresh hsock hready
  obtain ⟨-, hledger⟩ := serverLoop_ledger hbase hrun hfresh
  obtain ⟨entry, hentry, hconn⟩ := List.mem_map.mp (hhandled id hid)
  obtain ⟨id', out, rfl, hout⟩ := hledger.history.served_eq entry hentry
  obtain rfl : id' = id := Option.some.inj hconn
  obtain ⟨out', hout', hret, hsent⟩ := hclient.handled .httpServer2
  obtain rfl : out = out' := Except.ok.inj (hout.symm.trans hout')
  rw [hret] at hentry
  refine ⟨out.sent, hentry, fun prog host port cenv hok replyCut hreply => ?_⟩
  rw [hsent] at hreply
  exact hclient.received hok prog host port hreply

/-- Each of two clients gets the file `/a`. -/
theorem serverLoop_delivers_smallWorld :
    ∃ s sent, serverLoop smallWorld
        ([⟨some {3}, some 4⟩, ⟨some {3, 4}, some 5⟩] ++ [⟨some {5}, none⟩]) = .ok s ∧
      (some 1, sent, 0) ∈ served s.log ∧
      ∀ (prog host port : Bytes) (cenv : ClientEnv), cenv.Ok →
        ∀ replyCut, flat replyCut = sent →
          Client.main [prog, host, port, ascii "/a"] cenv (chunksThenClose replyCut) =
            .ok ⟨0, ascii "abc", [], ascii "GET /a HTTP/1.0\r\n\r\n"⟩ := by
  obtain ⟨s, hrun, hfresh, htwo, hready⟩ := smallWorld_lastRound
  have hword : ∀ b ∈ ascii "/a", isspace b = false := by decide
  have hrequest : flat [requestForA] = requestStr (ascii "/a") := by decide
  have hfits : Fits [] [requestForA] := fits_of_length (by decide)
  have hclient : ClientOn smallWorld.fs (smallWorld.conn 1) (ascii "/a") :=
    { ne_nil := by decide
      word := hword
      zero_notMem := by decide
      length_le := by decide
      request := ⟨[requestForA], [], hrequest, hfits, rfl⟩
      sends := by simp [AllAccepted, smallWorld]
      head := rfl
      blocks := by
        rintro _ ⟨⟩
        exact ⟨by decide, by decide⟩
      text := by
        rintro _ ⟨⟩
        decide }
  have hid : 1 < s.accepted := by rw [htwo]; decide
  obtain ⟨sent, hserved, hdelivered⟩ := serverLoop_delivers (Finset.mem_singleton_self 3) hrun
    hfresh (by decide) hready hid hclient
  exact ⟨s, sent, hrun, hserved, hdelivered⟩

end SimpleHttp
