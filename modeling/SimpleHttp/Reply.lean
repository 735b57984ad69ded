import SimpleHttp.Request

namespace SimpleHttp

open Lib

/-!
# `handle_connection`, second half — the reply

* `respond` — `fopen`, then the 404 reply or the 200 head and the body loop.
* `handleConnection` — the whole function: read loop, parse, reply.  Its `Outcome` lists every
  call it makes, in order, and the value it returns.
* `handleConnection_cases` — the three ways a call that stays defined can go.
* `freadBytes_bodyLoop`, `prefix_sent_bodyLoop`, `bodyLoop_ret` — the body loop sends a prefix
  of what it has read, which is a prefix of the file, and all of it if it returns 0.
-/

/-- The files under the server's current directory: the contents that `fopen(name, "rb")`
    opens, or `none` if it fails. -/
abbrev FileSystem := Bytes → Option Bytes

/-- What the kernel reports to one call of `handle_connection`: the results of its `recv`,
    `fread` and `send` calls in order, and the descriptor that `fopen` takes.
    An `fread` result of 0 ends the file or is an error; behind the listed ones it is 0. -/
structure ConnEnv where
  recvs : List RecvResult
  fileFd : Fd
  freads : List Nat
  sends : List SendResult

/-- The calls made and the value returned. -/
structure Outcome where
  calls : List Call
  ret : Int
  deriving DecidableEq

/-- The bytes put on the connection. -/
def Outcome.sent (out : Outcome) : Bytes := sentBytes out.calls

/-! ### The two replies -/

/-- `notok_response`. -/
def notokResponse : Bytes :=
  ascii "HTTP/1.0 404 FILE NOT FOUND\r\n" ++
  ascii "Content-type: text/html\r\n\r\n" ++
  ascii "<html><body bgColor=black text=white>\n" ++
  ascii "<h2>404 FILE NOT FOUND</h2>\n" ++
  ascii "</body></html>\n"

/-- `sprintf(header, ok_response_f, file_size)`. -/
def okResponse (fileSize : Int) : Bytes :=
  ascii "HTTP/1.0 200 OK\r\n" ++
  ascii "Content-type: text/plain\r\n" ++
  ascii "Content-length: " ++ decimal fileSize ++ ascii " \r\n\r\n"

/-- One `send` outside any loop: the count it reports (`none` for -1) and the results left. -/
def sendOnce (data : Bytes) : List SendResult → Option Nat × List SendResult
  | [] => (some data.length, [])
  | .accepted n :: rest => (some (min (n : Nat) data.length), rest)
  | .failed _ :: rest => (none, rest)

/-- The 404 branch. -/
def send404 (srv : Server) (sends : List SendResult) : Outcome :=
  match (sendOnce notokResponse sends).1 with
  | none => ⟨[.send notokResponse none, .perror (srv.name ++ ascii ": send error")], -1⟩
  | some n => ⟨[.send notokResponse (some n)], 0⟩

/-- The loop `while ((bytes_read = fread(buf, 1, BUFSIZE, file)) > 0)` with the send loop inside
    it, over the bytes `rest` of the file not read yet. -/
def bodyLoop (srv : Server) (fd : Fd) (buf rest : Bytes) :
    List Nat → List SendResult → Outcome
  | [], _ => ⟨[.fread [], .fclose fd], 0⟩
  | n :: freads, sends =>
      let block := rest.take (min n bufSize)
      if block = [] then ⟨[.fread [], .fclose fd], 0⟩
      else
        -- `fread` overwrites the front of `buf`; the request stays behind the block
        let buf' := poke buf 0 block
        let loop := sendLoop (buf'.take block.length) 0 sends
        match loop.failed with
        | some _ =>
            ⟨.fread block :: loop.calls ++
              [.perror (srv.name ++ ascii ": send error"), .fclose fd], -1⟩
        | none =>
            let next := bodyLoop srv fd buf' (rest.drop block.length) freads loop.rest
            ⟨.fread block :: loop.calls ++ next.calls, next.ret⟩

/-- `file_size`: what `ftell` finds at the end of the file, converted to `int`. -/
def fileSize (contents : Bytes) : Int := toInt32 contents.length

/-- The 200 branch: the head in one `send`, then the body loop. -/
def sendFile (srv : Server) (env : ConnEnv) (buf contents : Bytes) : Outcome :=
  let header := okResponse (fileSize contents)
  let head := sendOnce header env.sends
  match head.1 with
  | none =>
      ⟨[.send header none, .perror (srv.name ++ ascii ": send error"), .fclose env.fileFd], -1⟩
  | some n =>
      -- a short `send` of the head is taken for a success, and the rest of it is not sent
      let body := bodyLoop srv env.fileFd buf contents env.freads head.2
      ⟨.send header (some n) :: body.calls, body.ret⟩

/-- From `fopen` on. -/
def respond (srv : Server) (fs : FileSystem) (env : ConnEnv) (buf filename : Bytes) : Outcome :=
  let name := cstr filename
  match fs name with
  | none =>
      let reply := send404 srv env.sends
      ⟨.fopen name none :: reply.calls, reply.ret⟩
  | some contents =>
      let reply := sendFile srv env buf contents
      ⟨.fopen name (some env.fileFd) :: reply.calls, reply.ret⟩

/-- `handle_connection`. -/
def handleConnection (srv : Server) (fs : FileSystem) (env : ConnEnv) :
    Except Undefined Outcome :=
  match readLoop srv env.recvs clearBuf 0 with
  | (calls, none) => .ok ⟨calls, -1⟩
  | (calls, some buf) =>
      match parseRequest buf with
      | .error u => .error u
      | .ok none => .ok ⟨calls ++ [.eprint (srv.name ++ ascii ": failed to parse request\n")], -1⟩
      | .ok (some req) =>
          let reply := respond srv fs env buf (extractFilename req.path)
          .ok ⟨calls ++ reply.calls, reply.ret⟩

namespace Server1
/-- `handle_connection` of `http_server1.c`. -/
def handleConnection := SimpleHttp.handleConnection .httpServer1
end Server1

namespace Server2
/-- `handle_connection` of `http_server2.c`. -/
def handleConnection := SimpleHttp.handleConnection .httpServer2
end Server2

/-- **The ways through `handle_connection`.**  It fails to read a request, fails to parse it, or
    goes on to the reply for the path it has parsed. -/
theorem handleConnection_cases {srv : Server} {fs : FileSystem} {env : ConnEnv} {out : Outcome}
    (h : handleConnection srv fs env = .ok out) :
    (∃ calls, readLoop srv env.recvs clearBuf 0 = (calls, none) ∧ out = ⟨calls, -1⟩) ∨
    (∃ calls buf, readLoop srv env.recvs clearBuf 0 = (calls, some buf) ∧
      parseRequest buf = .ok none ∧
      out = ⟨calls ++ [.eprint (srv.name ++ ascii ": failed to parse request\n")], -1⟩) ∨
    (∃ calls buf req, readLoop srv env.recvs clearBuf 0 = (calls, some buf) ∧
      parseRequest buf = .ok (some req) ∧
      out = ⟨calls ++ (respond srv fs env buf (extractFilename req.path)).calls,
        (respond srv fs env buf (extractFilename req.path)).ret⟩) := by
  unfold handleConnection at h
  split at h
  · rename_i calls hread
    exact Or.inl ⟨calls, hread, (Except.ok.inj h).symm⟩
  · rename_i calls buf hread
    split at h
    · cases h
    · rename_i hparse
      exact Or.inr (Or.inl ⟨calls, buf, hread, hparse, (Except.ok.inj h).symm⟩)
    · rename_i req hparse
      exact Or.inr (Or.inr ⟨calls, buf, req, hread, hparse, (Except.ok.inj h).symm⟩)

/-- A request that is read and parsed is replied to. -/
theorem handleConnection_parsed {srv : Server} {env : ConnEnv} {calls : List Call} {buf : Bytes}
    {req : Request} (fs : FileSystem)
    (hread : readLoop srv env.recvs clearBuf 0 = (calls, some buf))
    (hparse : parseRequest buf = .ok (some req)) :
    handleConnection srv fs env = .ok
      ⟨calls ++ (respond srv fs env buf (extractFilename req.path)).calls,
        (respond srv fs env buf (extractFilename req.path)).ret⟩ := by
  rw [handleConnection, hread]
  simp only [hparse]

/-! ### What the read loop may do -/

/-- The read loop only receives and reports. -/
theorem readLoop_calls (srv : Server) (results : List RecvResult) (buf : Bytes) (totalLen : Nat) :
    ∀ c ∈ (readLoop srv results buf totalLen).1,
      (∃ asked got, c = .recv asked got) ∨ ∃ msg, c = .perror msg := by
  fun_induction readLoop srv results buf totalLen with
  | case2 buf totalLen hlt asked c rest got buf' hno next ih =>
    intro call hcall
    rcases List.mem_cons.mp hcall with rfl | hcall
    · exact Or.inl ⟨_, _, rfl⟩
    · exact ih call hcall
  | _ => simp

/-- The read loop sends nothing. -/
theorem sentBytes_readLoop (srv : Server) (results : List RecvResult) (buf : Bytes)
    (totalLen : Nat) : sentBytes (readLoop srv results buf totalLen).1 = [] := by
  fun_induction readLoop srv results buf totalLen with
  | case2 buf totalLen hlt asked c rest got buf' hno next ih => simpa [sentBytes] using ih
  | _ => simp [sentBytes]

/-- The read loop opens nothing. -/
theorem fopened_readLoop (srv : Server) (results : List RecvResult) (buf : Bytes)
    (totalLen : Nat) : fopened (readLoop srv results buf totalLen).1 = [] := by
  rw [fopened, List.filterMap_eq_nil_iff]
  intro c hc
  rcases readLoop_calls srv results buf totalLen c hc with ⟨asked, got, rfl⟩ | ⟨msg, rfl⟩ <;> rfl

/-! ### What the reply may do -/

/-- Calls that answer a request once its file is known to exist or not. -/
def Call.isReply : Call → Bool
  | .send .. | .fread .. | .fclose .. | .perror .. => true
  | _ => false

/-- A send loop only sends. -/
theorem isReply_sendLoop (data : Bytes) (sent : Nat) (results : List SendResult) :
    ∀ c ∈ (sendLoop data sent results).calls, c.isReply := by
  intro c hc
  obtain ⟨offered, accepted, rfl⟩ := sendLoop_calls data sent results c hc
  rfl

/-- The body loop reads the file and sends. -/
theorem isReply_bodyLoop (srv : Server) (fd : Fd) (buf rest : Bytes) (freads : List Nat)
    (sends : List SendResult) :
    ∀ c ∈ (bodyLoop srv fd buf rest freads sends).calls, c.isReply := by
  fun_induction bodyLoop srv fd buf rest freads sends with
  | case1 => simp [Call.isReply]
  | case2 => simp [Call.isReply]
  | case3 buf rest n freads sends block hne buf' loop errno hfail =>
    intro c hc
    rcases List.mem_append.mp hc with hc | hc
    · rcases List.mem_cons.mp hc with rfl | hc
      · rfl
      · exact isReply_sendLoop _ _ _ c hc
    · simp only [List.mem_cons, List.not_mem_nil, or_false] at hc
      rcases hc with rfl | rfl <;> rfl
  | case4 buf rest n freads sends block hne buf' loop hok next ih =>
    intro c hc
    rcases List.mem_append.mp hc with hc | hc
    · rcases List.mem_cons.mp hc with rfl | hc
      · rfl
      · exact isReply_sendLoop _ _ _ c hc
    · exact ih c hc

/-- The 404 reply only sends. -/
theorem isReply_send404 (srv : Server) (sends : List SendResult) :
    ∀ c ∈ (send404 srv sends).calls, c.isReply := by
  unfold send404
  split <;> simp [Call.isReply]

/-- The other reply opens no file either: it is open. -/
theorem isReply_sendFile (srv : Server) (env : ConnEnv) (buf contents : Bytes) :
    ∀ c ∈ (sendFile srv env buf contents).calls, c.isReply := by
  intro c hc
  simp only [sendFile] at hc
  split at hc
  · simp only [List.mem_cons, List.not_mem_nil, or_false] at hc
    rcases hc with rfl | rfl | rfl <;> rfl
  · rcases List.mem_cons.mp hc with rfl | hc
    · rfl
    · exact isReply_bodyLoop _ _ _ _ _ _ c hc

/-- From `fopen` on, one file is asked for and nothing is received any more. -/
theorem respond_calls (srv : Server) (fs : FileSystem) (env : ConnEnv) (buf filename : Bytes) :
    ∃ fd calls, (respond srv fs env buf filename).calls = .fopen (cstr filename) fd :: calls ∧
      ∀ c ∈ calls, c.isReply := by
  cases h : fs (cstr filename) with
  | none =>
    refine ⟨none, _, ?_, isReply_send404 srv env.sends⟩
    simp only [respond, h]
  | some contents =>
    refine ⟨some env.fileFd, _, ?_, isReply_sendFile srv env buf contents⟩
    simp only [respond, h]

/-- To reply is not to receive. -/
theorem received_of_isReply {calls : List Call} (h : ∀ c ∈ calls, c.isReply) :
    received calls = [] := by
  rw [received, List.filterMap_eq_nil_iff]
  intro c hc
  have := h c hc
  cases c <;> simp_all [Call.isReply]

theorem fopened_of_isReply {calls : List Call} (h : ∀ c ∈ calls, c.isReply) :
    fopened calls = [] := by
  rw [fopened, List.filterMap_eq_nil_iff]
  intro c hc
  have := h c hc
  cases c <;> simp_all [Call.isReply]

/-- One name is passed to `fopen`. -/
theorem fopened_respond (srv : Server) (fs : FileSystem) (env : ConnEnv) (buf filename : Bytes) :
    fopened (respond srv fs env buf filename).calls = [cstr filename] := by
  obtain ⟨fd, calls, hcalls, hreply⟩ := respond_calls srv fs env buf filename
  rw [hcalls, ← List.singleton_append, fopened_append, fopened_of_isReply hreply]
  rfl

/-- Behind the read loop nothing is received. -/
theorem received_respond (srv : Server) (fs : FileSystem) (env : ConnEnv) (buf filename : Bytes) :
    received (respond srv fs env buf filename).calls = [] := by
  obtain ⟨fd, calls, hcalls, hreply⟩ := respond_calls srv fs env buf filename
  rw [hcalls, ← List.singleton_append, received_append, received_of_isReply hreply]
  rfl

/-- A call that asks for a file has read a request before that and sent nothing yet. -/
theorem handleConnection_reaches {srv : Server} {fs : FileSystem} {env : ConnEnv} {out : Outcome}
    {name : Bytes} (hrun : handleConnection srv fs env = .ok out)
    (hopen : fopened out.calls = [name]) :
    ∃ reads buf filename, fopened reads = [] ∧ sentBytes reads = [] ∧ cstr filename = name ∧
      out.calls = reads ++ (respond srv fs env buf filename).calls ∧
      out.ret = (respond srv fs env buf filename).ret := by
  have hnone := fopened_readLoop srv env.recvs clearBuf 0
  have hquiet := sentBytes_readLoop srv env.recvs clearBuf 0
  rcases handleConnection_cases hrun with ⟨calls, hread, rfl⟩ | ⟨calls, buf, hread, -, rfl⟩ |
    ⟨calls, buf, req, hread, -, rfl⟩
  · rw [hread] at hnone
    rw [hnone] at hopen
    cases hopen
  · rw [hread] at hnone
    rw [fopened_append, hnone] at hopen
    cases hopen
  · rw [hread] at hnone hquiet
    rw [fopened_append, hnone, fopened_respond, List.nil_append] at hopen
    obtain rfl : cstr (extractFilename req.path) = name := by simpa using hopen
    exact ⟨calls, buf, extractFilename req.path, hnone, hquiet, rfl, rfl, rfl⟩

/-- The calls of a reply are cut behind the first `send` in one way. -/
theorem reply_split {reads body before after : List Call} {name name' data data' : Bytes}
    {fd fd' : Option Fd} {res res' : Option Nat} (hreads : fopened reads = [])
    (hbody : fopened body = [])
    (h : reads ++ .fopen name fd :: .send data res :: body =
      before ++ .fopen name' fd' :: .send data' res' :: after) :
    data' = data ∧ res' = res ∧ after = body := by
  have hnot : ∀ {calls : List Call}, fopened calls = [] → .fopen name' fd' ∉ calls := by
    intro calls hcalls hmem
    cases List.filterMap_eq_nil_iff.mp hcalls _ hmem
  have hrest : fopened (.send data res :: body) = [] := hbody
  obtain ⟨-, -, heq⟩ := (List.append_cons_inj_of_notMem (hnot hreads) (hnot hrest)).mp h
  cases heq
  exact ⟨rfl, rfl, rfl⟩

/-! ### The body loop -/

/-- The blocks that the `fread` calls returned, one after the other. -/
def freadBytes : List Call → Bytes
  | [] => []
  | .fread block :: calls => block ++ freadBytes calls
  | _ :: calls => freadBytes calls

theorem freadBytes_append (a b : List Call) :
    freadBytes (a ++ b) = freadBytes a ++ freadBytes b := by
  fun_induction freadBytes a with
  | case1 => rfl
  | case2 block calls ih => simp [freadBytes, ih]
  | case3 call calls hne ih =>
    cases call with
    | fread block => exact absurd rfl (hne block)
    | _ => simpa [freadBytes] using ih

/-- A send loop reads nothing. -/
theorem freadBytes_sendLoop (data : Bytes) (sent : Nat) (results : List SendResult) :
    freadBytes (sendLoop data sent results).calls = [] := by
  fun_induction sendLoop data sent results with
  | case3 sent hlt n rest res next ih => simpa [freadBytes] using ih
  | _ => simp [freadBytes]

/-- The block just read is what the send loop offers, whatever the buffer held before. -/
@[simp] theorem take_poke_block (buf block : Bytes) :
    (poke buf 0 block).take block.length = block := by
  simp [poke_zero]

/-- A block of the file and what is left of it behind the block. -/
theorem block_append_drop (rest : Bytes) (n : Nat) :
    rest.take n ++ rest.drop (rest.take n).length = rest := by
  rw [List.length_take, ← List.drop_eq_drop_min, List.take_append_drop]

/-- A block is read, then sent. -/
theorem freadBytes_block (block data : Bytes) (sent : Nat) (sends : List SendResult)
    (calls : List Call) :
    freadBytes (.fread block :: (sendLoop data sent sends).calls ++ calls) =
      block ++ freadBytes calls := by
  rw [List.cons_append, freadBytes, freadBytes_append, freadBytes_sendLoop, List.nil_append]

/-- A block whose send loop does not fail is sent whole. -/
theorem sentBytes_block {buf block : Bytes} {sends : List SendResult}
    (hok : (sendLoop ((poke buf 0 block).take block.length) 0 sends).failed = none)
    (calls : List Call) :
    sentBytes (.fread block ::
      (sendLoop ((poke buf 0 block).take block.length) 0 sends).calls ++ calls) =
        block ++ sentBytes calls := by
  rw [List.cons_append, sentBytes, sentBytes_append, sentBytes_sendLoop_of_none hok,
    List.drop_zero, take_poke_block]
  exact fun _ _ h => Call.noConfusion h

/-- The `fread` calls return a prefix of the file. -/
theorem freadBytes_bodyLoop (srv : Server) (fd : Fd) (buf rest : Bytes) (freads : List Nat)
    (sends : List SendResult) :
    freadBytes (bodyLoop srv fd buf rest freads sends).calls <+: rest := by
  fun_induction bodyLoop srv fd buf rest freads sends with
  | case1 => simp [freadBytes]
  | case2 => simp [freadBytes]
  | case3 buf rest n freads sends block hne buf' loop errno hfail =>
    rw [freadBytes_block]
    simpa [freadBytes] using List.take_prefix _ _
  | case4 buf rest n freads sends block hne buf' loop hok next ih =>
    rw [freadBytes_block]
    conv_rhs => rw [← block_append_drop rest (min n bufSize)]
    exact (List.prefix_append_right_inj block).mpr ih

/-- The bytes sent are a prefix of the blocks read. -/
theorem prefix_sent_bodyLoop (srv : Server) (fd : Fd) (buf rest : Bytes) (freads : List Nat)
    (sends : List SendResult) :
    (bodyLoop srv fd buf rest freads sends).sent <+:
      freadBytes (bodyLoop srv fd buf rest freads sends).calls := by
  fun_induction bodyLoop srv fd buf rest freads sends with
  | case1 => simp [Outcome.sent, freadBytes, sentBytes]
  | case2 => simp [Outcome.sent, freadBytes, sentBytes]
  | case3 buf rest n freads sends block hne buf' loop errno hfail =>
    have hpre := prefix_sentBytes_sendLoop (buf'.take block.length) 0 sends
    rw [take_poke_block buf block, List.drop_zero] at hpre
    rw [freadBytes_block]
    simpa [Outcome.sent, sentBytes, freadBytes, loop, buf'] using hpre
  | case4 buf rest n freads sends block hne buf' loop hok next ih =>
    rw [freadBytes_block, Outcome.sent, sentBytes_block hok]
    exact (List.prefix_append_right_inj block).mpr ih

/-- **How the body loop returns.**  With 0 after sending every block it has read, and with -1
    after a failed send, some of what it has read not sent. -/
theorem bodyLoop_ret (srv : Server) (fd : Fd) (buf rest : Bytes) (freads : List Nat)
    (sends : List SendResult) :
    let out := bodyLoop srv fd buf rest freads sends
    (out.ret = 0 ∧ out.sent = freadBytes out.calls ∧ ∀ d, .send d none ∉ out.calls) ∨
      (out.ret = -1 ∧ out.sent.length < (freadBytes out.calls).length ∧
        ∃ d, .send d none ∈ out.calls) := by
  fun_induction bodyLoop srv fd buf rest freads sends with
  | case1 => simp [Outcome.sent, freadBytes, sentBytes]
  | case2 => simp [Outcome.sent, freadBytes, sentBytes]
  | case3 buf rest n freads sends block hne buf' loop errno hfail =>
    -- the block has been read, but not sent whole
    refine Or.inr ⟨rfl, ?_, ?_⟩
    · have hlt := sentBytes_sendLoop_of_failed hfail
      rw [take_poke_block buf block] at hlt
      rw [freadBytes_block]
      simpa [Outcome.sent, sentBytes, freadBytes, loop, buf'] using hlt
    · by_contra hno
      have hok : loop.failed = none := (failed_sendLoop_iff _ _ _).mpr fun d hd =>
        hno ⟨d, by simp [loop, hd]⟩
      rw [hfail] at hok
      cases hok
  | case4 buf rest n freads sends block hne buf' loop hok next ih =>
    -- this block is sent whole, so what is missing in the end is missing behind it
    rcases ih with ⟨hret, hall, hno⟩ | ⟨hret, hlt, d, hd⟩
    · refine Or.inl ⟨hret, ?_, fun d hd => ?_⟩
      · rw [Outcome.sent, sentBytes_block hok, freadBytes_block]
        exact congrArg (block ++ ·) hall
      · rcases List.mem_append.mp hd with hd | hd
        · rcases List.mem_cons.mp hd with hd | hd
          · cases hd
          · exact (failed_sendLoop_iff _ _ _).mp hok d hd
        · exact hno d hd
    · refine Or.inr ⟨hret, ?_, d, List.mem_append_right _ hd⟩
      rw [Outcome.sent, sentBytes_block hok, freadBytes_block, List.length_append,
        List.length_append]
      exact Nat.add_lt_add_left hlt _

end SimpleHttp
