import SimpleHttp.HeaderBuffer
import SimpleHttp.Representation
import SimpleHttp.Tokens

namespace SimpleHttp

open Lib

/-!
# What the programs report

* `reports`, `reported_handleConnection` — `handle_connection` returns -1 with one message, or 0
  with none.
* `serverLoop_reports`, `acceptLoop_reports` — in the log of a server, an error line for each of
  these messages.
* `main_reports` — the client: its exit code, what it has written and what it has sent.

All calls return here.  A `send` to a peer that has gone raises SIGPIPE, which ends the process
before there is anything to report.
-/

/-! ### `handle_connection` -/

/-- A message on stderr. -/
def Call.isReport : Call → Bool
  | .perror _ | .eprint _ => true
  | _ => false

/-- The number of messages. -/
def reports (calls : List Call) : Nat := calls.countP Call.isReport

@[simp] theorem reports_nil : reports [] = 0 := rfl

@[simp] theorem reports_append (a b : List Call) : reports (a ++ b) = reports a + reports b :=
  List.countP_append

/-- A send loop leaves the message to its caller. -/
theorem reports_sendLoop (data : Bytes) (sent : Nat) (results : List SendResult) :
    reports (sendLoop data sent results).calls = 0 := by
  rw [reports, List.countP_eq_zero]
  intro c hc
  obtain ⟨offered, accepted, rfl⟩ := sendLoop_calls data sent results c hc
  simp [Call.isReport]

/-- The value returned is told from the messages: none of them, or one. -/
def Reported (out : Outcome) : Prop :=
  out.ret = -(reports out.calls : Int) ∧ reports out.calls ≤ 1

/-- Calls in front that report nothing. -/
theorem Reported.prepend {calls calls' : List Call} {ret : Int} (h : Reported ⟨calls', ret⟩)
    (hquiet : reports calls = 0) : Reported ⟨calls ++ calls', ret⟩ := by
  obtain ⟨hret, hle⟩ := h
  have hsum : reports (calls ++ calls') = reports calls' := by
    rw [reports_append, hquiet, Nat.zero_add]
  exact ⟨by rw [hret, hsum], by rwa [hsum]⟩

/-- The body loop has one for a failed send. -/
theorem reported_bodyLoop (srv : Server) (fd : Fd) (buf rest : Bytes) (freads : List Nat)
    (sends : List SendResult) : Reported (bodyLoop srv fd buf rest freads sends) := by
  fun_induction bodyLoop srv fd buf rest freads sends with
  | case1 => exact ⟨rfl, Nat.zero_le 1⟩
  | case2 => exact ⟨rfl, Nat.zero_le 1⟩
  | case3 buf rest n freads sends block hne buf' loop errno hfail =>
    have hquiet : reports (.fread block :: loop.calls) = 0 := reports_sendLoop _ _ _
    have htail : Reported ⟨[.perror (srv.name ++ ascii ": send error"), .fclose fd], -1⟩ :=
      ⟨rfl, Nat.le_refl 1⟩
    exact htail.prepend hquiet
  | case4 buf rest n freads sends block hne buf' loop hok next ih =>
    have hquiet : reports (.fread block :: loop.calls) = 0 := reports_sendLoop _ _ _
    exact ih.prepend hquiet

/-- The 404 reply has one for its failed send. -/
theorem reported_send404 (srv : Server) (sends : List SendResult) :
    Reported (send404 srv sends) := by
  unfold send404
  split
  · exact ⟨rfl, Nat.le_refl 1⟩
  · exact ⟨rfl, Nat.zero_le 1⟩

/-- The reply with a file has one message for whichever of its sends fails. -/
theorem reported_sendFile (srv : Server) (env : ConnEnv) (buf contents : Bytes) :
    Reported (sendFile srv env buf contents) := by
  unfold sendFile
  dsimp only
  split
  · exact ⟨rfl, Nat.le_refl 1⟩
  · rename_i n hhead
    have hquiet : reports [.send (okResponse (fileSize contents)) (some n)] = 0 := rfl
    exact (reported_bodyLoop srv env.fileFd buf contents env.freads _).prepend hquiet

/-- Either reply is told from its messages. -/
theorem reported_respond (srv : Server) (fs : FileSystem) (env : ConnEnv) (buf filename : Bytes) :
    Reported (respond srv fs env buf filename) := by
  have hquiet : ∀ fd, reports [.fopen (cstr filename) fd] = 0 := fun _ => rfl
  unfold respond
  dsimp only
  split
  · exact (reported_send404 srv env.sends).prepend (hquiet none)
  · exact (reported_sendFile srv env buf _).prepend (hquiet (some env.fileFd))

/-- The read loop reports when it gives up. -/
theorem reports_readLoop (srv : Server) (results : List RecvResult) (buf : Bytes)
    (totalLen : Nat) :
    reports (readLoop srv results buf totalLen).1 =
      if (readLoop srv results buf totalLen).2 = none then 1 else 0 := by
  fun_induction readLoop srv results buf totalLen with
  | case2 buf totalLen hlt asked c rest got buf' hno next ih => exact ih
  | _ => rfl

/-- **`handle_connection`.** -/
theorem reported_handleConnection {srv : Server} {fs : FileSystem} {env : ConnEnv} {out : Outcome}
    (h : handleConnection srv fs env = .ok out) : Reported out := by
  have hread := reports_readLoop srv env.recvs clearBuf 0
  rcases handleConnection_cases h with ⟨calls, hr, rfl⟩ | ⟨calls, buf, hr, -, rfl⟩ |
    ⟨calls, buf, req, hr, -, rfl⟩ <;> rw [hr] at hread
  · exact ⟨by rw [hread]; rfl, Nat.le_of_eq hread⟩
  · have hone : Reported ⟨[.eprint (srv.name ++ ascii ": failed to parse request\n")], -1⟩ :=
      ⟨rfl, Nat.le_refl 1⟩
    exact hone.prepend hread
  · exact (reported_respond srv fs env buf _).prepend hread

/-! ### The logs of the servers -/

/-- What `main` prints when `handle_connection` has failed. -/
def errorLine (srv : Server) : Bytes := srv.name ++ ascii ": error handling connection\n"

/-- How many of these lines there are. -/
def errorLines (srv : Server) (log : List Event) : Nat := log.count (.print (errorLine srv))

/-- The messages of one call of `handle_connection`. -/
def Event.reports : Event → Nat
  | .handled _ _ out => SimpleHttp.reports out.calls
  | _ => 0

/-- The messages of all calls of `handle_connection`. -/
def diagnostics (log : List Event) : Nat := (log.map Event.reports).sum

/-- As many error lines as messages. -/
def LinesMatch (srv : Server) (log : List Event) : Prop := errorLines srv log = diagnostics log

/-- Every value returned is told from the messages, and each message has its error line. -/
structure Accounts (srv : Server) (log : List Event) : Prop where
  outcomes : ∀ fd conn out, .handled fd conn out ∈ log → Reported out
  lines : LinesMatch srv log

theorem Accounts.append {srv : Server} {a b : List Event} (ha : Accounts srv a)
    (hb : Accounts srv b) : Accounts srv (a ++ b) where
  outcomes fd conn out h :=
    (List.mem_append.mp h).elim (ha.outcomes fd conn out) (hb.outcomes fd conn out)
  lines := by
    rw [LinesMatch, errorLines, diagnostics, List.count_append, List.map_append, List.sum_append]
    exact congrArg₂ (· + ·) ha.lines hb.lines

/-- A connection that is served, with its line if it has failed. -/
theorem accounts_serve {srv : Server} {fs : FileSystem} {env : ConnEnv} {out : Outcome}
    (h : handleConnection srv fs env = .ok out) (fd : Fd) (conn : Option ConnId) :
    Accounts srv (serve srv fd conn out) := by
  have hreported := reported_handleConnection h
  obtain ⟨hret, hle⟩ := hreported
  constructor
  · intro fd' conn' out' hmem
    obtain rfl : out' = out := by
      unfold serve at hmem
      split at hmem <;> simp at hmem <;> exact hmem.2.2
    exact ⟨hret, hle⟩
  · rw [LinesMatch, errorLines, serve]
    by_cases hneg : out.ret < 0
    · have hone : reports out.calls = 1 := by omega
      simp [hneg, diagnostics, Event.reports, hone, errorLine]
    · have hzero : reports out.calls = 0 := by omega
      simp [hneg, diagnostics, Event.reports, hzero]

/-- Events that are neither. -/
theorem accounts_quiet {srv : Server} {log : List Event}
    (hhandled : ∀ fd conn out, .handled fd conn out ∉ log)
    (hline : .print (errorLine srv) ∉ log) : Accounts srv log where
  outcomes fd conn out h := absurd h (hhandled fd conn out)
  lines := by
    rw [LinesMatch, errorLines, List.count_eq_zero_of_not_mem hline, diagnostics, eq_comm]
    apply List.sum_eq_zero
    intro n hn
    obtain ⟨e, he, rfl⟩ := List.mem_map.mp hn
    cases e with
    | handled fd conn out => exact absurd he (hhandled fd conn out)
    | _ => rfl

/-- **A round.** -/
theorem accounts_round {w : World} {s s' : State} {env : RoundEnv}
    (hs : Accounts .httpServer2 s.log) (hround : round w s env = .ok s') :
    Accounts .httpServer2 s'.log := by
  have htooMany : errorLine .httpServer2 ≠
      ascii "Too many connections, rejecting new connection\n" := by decide
  refine round_invariant (P := fun s => Accounts .httpServer2 s.log) ?_ ?_ ?_ ?_ ?_ hs hround
  · exact fun s ready hs => hs.append (accounts_quiet (by simp) (by simp))
  · exact fun s msg hs => hs.append (accounts_quiet (by simp) (by simp))
  · intro s i fd readFds h hs _ _ _
    exact hs.append (accounts_quiet (by simp) (by simp))
  · intro s fd hs _
    refine Accounts.append (hs.append (accounts_quiet (by simp) (by simp))) ?_
    exact accounts_quiet (by simp) (by simp [htooMany])
  · intro s i conn out readFds hs _ _ _ hrun
    exact hs.append (accounts_serve hrun conn _)

/-- The tokens of every request that is parsed are written inside their arrays. -/
def World.TokensInside (w : World) : Prop :=
  ∀ id buf, (readLoop .httpServer2 (w.conn id).recvs clearBuf 0).2 = some buf →
    ∀ p ∈ tokenWrites buf, p.2 < p.1

/-- Nothing else can go wrong in `handle_connection`. -/
theorem World.TokensInside.handles {w : World} (hw : w.TokensInside) : w.Handles := by
  intro id
  have hinside := hw id
  unfold Server2.handleConnection handleConnection
  split
  · exact ⟨_, rfl⟩
  · rename_i calls buf hread
    rw [hread] at hinside
    have hparse : parseRequest buf ≠ .error .tokenOverflow := fun herror =>
      (parseRequest_error_iff buf).mp herror (hinside buf rfl)
    rcases parseRequest_cases buf with ⟨-, heq⟩ | ⟨-, -, heq⟩ | ⟨-, -, req, heq⟩
    · exact absurd heq hparse
    · rw [heq]
      exact ⟨_, rfl⟩
    · rw [heq]
      exact ⟨_, rfl⟩

/-- **Failures of `http_server2`.**  In every run that stays defined, each call of
    `handle_connection` returns 0 without a message, or -1 with one, and `main` prints one line for
    each of these messages; and a run does stay defined if the tokens of the requests fit and
    `accept` returns descriptors below `FD_SETSIZE`. -/
theorem serverLoop_reports (w : World) (rounds : List RoundEnv) :
    (∀ s, serverLoop w rounds = .ok s → Accounts .httpServer2 s.log) ∧
      (w.TokensInside → (∀ env ∈ rounds, ∀ fd, env.accept = some fd → fd < fdSetSize) →
        ∃ s, serverLoop w rounds = .ok s ∧ Accounts .httpServer2 s.log) := by
  have haccounts : ∀ s, serverLoop w rounds = .ok s → Accounts .httpServer2 s.log := fun s hrun =>
    run_invariant (P := fun s => Accounts .httpServer2 s.log)
      (fun _ _ _ hm hround => accounts_round hm hround)
      (accounts_quiet (by simp [initial]) (by simp [initial])) hrun
  refine ⟨haccounts, fun hinside haccept => ?_⟩
  have hstart : InRange (initial w) := fun i fd hfd => by cases hfd
  obtain ⟨s, hrun, -⟩ := run_total
    (fun m env henv hm => round_total hinside.handles hm (haccept env henv)) hstart
  exact ⟨s, hrun, haccounts s hrun⟩

/-- The first client asks for `/a`, the others close their connections without a request. -/
def halfWorld : World :=
  { smallWorld with conn := fun id => ⟨if id = 0 then [.data requestForA] else [], 9, [3], []⟩ }

/-- Both are accepted and handled; the second one has its message and its line. -/
theorem serverLoop_reports_halfWorld :
    ∃ s, serverLoop halfWorld [⟨some {3}, some 4⟩, ⟨some {3, 4}, some 5⟩, ⟨some {5}, none⟩] =
        .ok s ∧
      Accounts .httpServer2 s.log ∧ errorLines .httpServer2 s.log = 1 ∧
      diagnostics s.log = 1 := by
  have hinside : halfWorld.TokensInside := by
    intro id buf hbuf
    have hfits : ∀ recvs ∈ [[.data requestForA], ([] : List RecvResult)],
        ∀ buf ∈ (readLoop .httpServer2 recvs clearBuf 0).2,
          ∀ p ∈ tokenWrites buf, p.2 < p.1 := by decide +kernel
    refine hfits (halfWorld.conn id).recvs ?_ buf hbuf
    by_cases hid : id = 0
    · simp [halfWorld, hid]
    · simp [halfWorld, hid]
  have hlines : (serverLoop halfWorld
      [⟨some {3}, some 4⟩, ⟨some {3, 4}, some 5⟩, ⟨some {5}, none⟩]).map
        (fun s => errorLines .httpServer2 s.log) = .ok 1 := by decide +kernel
  obtain ⟨s, hrun, haccounts⟩ := (serverLoop_reports halfWorld
    [⟨some {3}, some 4⟩, ⟨some {3, 4}, some 5⟩, ⟨some {5}, none⟩]).2 hinside
      (by simp [fdSetSize])
  rw [hrun] at hlines
  have hone : errorLines .httpServer2 s.log = 1 := Except.ok.inj hlines
  exact ⟨s, hrun, haccounts, hone, haccounts.lines.symm.trans hone⟩

/-- **Failures of `http_server1`.** -/
theorem acceptLoop_reports {fs : FileSystem} {conn : ConnId → ConnEnv}
    {accepts : List (Option (Fd × ConnId))} {log : List Event}
    (hrun : Server1.acceptLoop fs conn accepts = .ok log) : Accounts .httpServer1 log := by
  refine run_invariant (P := Accounts .httpServer1) ?_ (accounts_quiet (by simp) (by simp)) hrun
  intro log a log' hlog hturn
  unfold Server1.turn at hturn
  split at hturn
  · cases hturn
    exact hlog.append (accounts_quiet (by simp) (by simp))
  · split at hturn
    · cases hturn
    · rename_i a fd id x out hrun
      cases hturn
      have hquiet : Accounts .httpServer1 [.accepted fd id] := accounts_quiet (by simp) (by simp)
      exact hlog.append (hquiet.append (accounts_serve hrun fd (some id)))

/-! ### The client -/

/-- An exit with 0 and nothing on stderr, or with -1 and a message there. -/
def Exit.Reported (exit : Exit) : Prop :=
  (exit.code = 0 ∧ exit.stderr = []) ∨ (exit.code = -1 ∧ exit.stderr ≠ [])

/-- `perror` always prints something. -/
theorem perrorText_ne_nil (msg errno : Bytes) : perrorText msg errno ≠ [] := by
  simp [perrorText, ascii]

/-- To die is to say so. -/
theorem reported_die {err : Bytes} (h : err ≠ []) : (die err).Reported := Or.inr ⟨rfl, h⟩

/-- The header loop ends with a message, or with the end of the headers found. -/
theorem headerLoop_ends {acc : Bytes} {recvs : List RecvResult} {loop : HeaderLoop}
    (h : headerLoop acc recvs = .ok loop) :
    (∃ err, err ≠ [] ∧ loop = .gone (die err)) ∨
      ∃ headers rest, loop = .got headers rest ∧ (strstr headers crlfcrlf).isSome := by
  fun_induction headerLoop acc recvs with
  | case1 acc c rest text hlt headers' hfound =>
    cases h
    exact Or.inr ⟨headers', rest, rfl, hfound⟩
  | case2 acc c rest text hlt headers' hno ih => exact ih h
  | case3 => cases h
  | case4 acc errno rest =>
    cases h
    exact Or.inl ⟨_, perrorText_ne_nil _ _, rfl⟩
  | case5 =>
    cases h
    exact Or.inl ⟨_, by decide, rfl⟩

/-- What has been written stays written. -/
theorem length_le_copyRest (out : Bytes) (recvs : List RecvResult) :
    out.length ≤ (copyRest out recvs).1.length := by
  fun_induction copyRest out recvs with
  | case1 out c rest ih =>
    rw [List.length_append] at ih
    omega
  | _ => exact Nat.le_refl _

/-- **The response.** -/
theorem reported_readResponse {recvs : List RecvResult} {exit : Exit}
    (h : readResponse recvs = .ok exit) : exit.Reported := by
  unfold readResponse at h
  split at h
  · cases h
  · rename_i hloop
    cases h
    rcases headerLoop_ends hloop with ⟨err, herr, heq⟩ | ⟨headers, rest, heq, -⟩
    · cases heq
      exact reported_die herr
    · cases heq
  · rename_i headers rest hloop
    split at h
    · cases h
      exact reported_die (by decide)
    · rename_i delim hdelim
      dsimp only at h
      split at h
      · split at h
        · cases h
          exact Or.inr ⟨rfl, perrorText_ne_nil _ _⟩
        · cases h
          exact Or.inl ⟨rfl, rfl⟩
      · cases h
        refine Or.inr ⟨rfl, fun hnil => ?_⟩
        -- what is written begins with the headers, and these are not empty
        have hempty : (copyRest headers rest).1 = [] := hnil
        have hlength := length_le_copyRest headers rest
        rw [hempty] at hlength
        have hheaders : headers = [] := List.eq_nil_of_length_eq_zero (Nat.le_zero.mp hlength)
        have hnone : strstr [] crlfcrlf = none := by decide
        rw [hheaders, hnone] at hdelim
        cases hdelim

/-- What a run of the client leaves behind, whatever its calls have returned. -/
structure Exit.Sound (exit : Exit) (serverPath : Bytes) : Prop where
  reported : exit.Reported
  sent : exit.sent <+: requestStr serverPath
  /-- Nothing is written, and nothing is a success, unless the whole request has been sent. -/
  requested : exit.code = 0 ∨ exit.stdout ≠ [] → exit.sent = requestStr serverPath

/-- To die before the response is read. -/
theorem sound_die {err sent path : Bytes} (herr : err ≠ []) (hsent : sent <+: requestStr path) :
    ({ die err with sent } : Exit).Sound path where
  reported := Or.inr ⟨rfl, herr⟩
  sent := hsent
  requested h := by
    rcases h with h | h
    · cases h
    · exact absurd rfl h

/-- The request is sent as a whole, or the client exits. -/
theorem sendRequest_cases (path : Bytes) (env : ClientEnv) :
    sendRequest path env = .ok (requestStr path) ∨
      ∃ exit, sendRequest path env = .error exit ∧ exit.Sound path := by
  have hprefix : sentBytes (sendLoop (requestStr path) 0 env.sends).calls <+: requestStr path :=
    prefix_sentBytes_sendLoop (requestStr path) 0 env.sends
  unfold sendRequest
  dsimp only
  split
  · exact Or.inr ⟨_, rfl, sound_die (perrorText_ne_nil _ _) hprefix⟩
  · exact Or.inr ⟨_, rfl, sound_die (perrorText_ne_nil _ _) hprefix⟩
  · rename_i hnone _
    left
    rw [sentBytes_sendLoop_of_none hnone, List.drop_zero]

/-- From the start on, the request is sent as a whole, or the client exits. -/
theorem connectAndSend_cases (argv : List Bytes) (env : ClientEnv) :
    connectAndSend argv env = .ok (requestStr (argv.getD 3 [])) ∨
      ∃ exit, connectAndSend argv env = .error exit ∧ exit.Sound (argv.getD 3 []) := by
  have hdie : ∀ err, err ≠ [] → (die err).Sound (argv.getD 3 []) :=
    fun err herr => sound_die herr (List.nil_prefix)
  unfold connectAndSend
  split
  · split
    · split
      · exact Or.inr ⟨_, rfl, hdie _ (perrorText_ne_nil _ _)⟩
      · exact Or.inr ⟨_, rfl, hdie _ (perrorText_ne_nil _ _)⟩
      · exact Or.inr ⟨_, rfl, hdie _ (perrorText_ne_nil _ _)⟩
      · exact sendRequest_cases _ env
    · exact Or.inr ⟨_, rfl, hdie _ (by decide)⟩
  · exact Or.inr ⟨_, rfl, hdie _ (by decide)⟩

/-- All that can go wrong in the header loop is `headers`. -/
theorem headerLoop_error {acc : Bytes} {recvs : List RecvResult} {u : Undefined}
    (h : headerLoop acc recvs = .error u) : u = .headersOverflow := by
  fun_induction headerLoop acc recvs with
  | case2 acc c rest text hlt headers' hno ih => exact ih h
  | case3 => exact (Except.error.inj h).symm
  | _ => cases h

/-- The response is handled unless the header loop leaves `headers`. -/
theorem readResponse_defined_iff (recvs : List RecvResult) :
    (∃ exit, readResponse recvs = .ok exit) ↔
      (headText [] (texts (arrived recvs))).length < headersSize := by
  rw [← headerWrites_lt_iff List.not_mem_nil (by decide), ← not_iff_not, ← headerLoop_error_iff,
    readResponse]
  cases hloop : headerLoop [] recvs with
  | error u =>
    obtain rfl := headerLoop_error hloop
    simp
  | ok loop =>
    refine iff_of_false (not_not.mpr ?_) (by simp)
    -- every other end of the header loop is followed by an exit
    cases loop with
    | gone exit => exact ⟨exit, rfl⟩
    | got headers rest =>
      dsimp only
      split
      · exact ⟨_, rfl⟩
      · split
        · split
          · exact ⟨_, rfl⟩
          · exact ⟨_, rfl⟩
        · exact ⟨_, rfl⟩

/-- **The exit**, if there is one. -/
theorem main_sound {argv : List Bytes} {env : ClientEnv} {recvs : List RecvResult} {exit : Exit}
    (h : Client.main argv env recvs = .ok exit) : exit.Sound (argv.getD 3 []) := by
  unfold Client.main at h
  rcases connectAndSend_cases argv env with hsent | ⟨exit', hfailed, hsound⟩
  · rw [hsent] at h
    dsimp only at h
    split at h
    · cases h
    · rename_i exit' hresponse
      cases h
      have hreported : exit'.Reported := reported_readResponse hresponse
      exact ⟨hreported, List.prefix_refl _, fun _ => rfl⟩
  · rw [hfailed] at h
    cases h
    exact hsound

/-- **Failures of the client.**  The client exits exactly if it gives up before it reads, or if the
    text that the header loop collects leaves room for a zero in `headers`.  It exits with 0 and
    nothing on stderr, or with -1 and a message there; it has sent a prefix of its request, and all
    of it before it writes anything to stdout or exits with 0. -/
theorem main_reports (argv : List Bytes) (env : ClientEnv) (recvs : List RecvResult) :
    (∀ exit, Client.main argv env recvs = .ok exit → exit.Sound (argv.getD 3 [])) ∧
      ((∃ exit, Client.main argv env recvs = .ok exit) ↔
        (∃ exit, connectAndSend argv env = .error exit) ∨
          (headText [] (texts (arrived recvs))).length < headersSize) := by
  refine ⟨fun exit h => main_sound h, ?_⟩
  rw [← readResponse_defined_iff, Client.main]
  rcases connectAndSend_cases argv env with hsent | ⟨exit, hfailed, -⟩
  · rw [hsent]
    cases readResponse recvs with
    | error u => simp
    | ok exit => simp
  · rw [hfailed]
    exact iff_of_true ⟨exit, rfl⟩ (Or.inl ⟨exit, rfl⟩)

/-- The connection is reset in the middle of the body. -/
theorem main_reports_reset :
    ∃ exit, Client.main [ascii "http_client", ascii "host", ascii "1500", ascii "a"]
        ⟨true, none, none, none, [], none⟩
        [.data ⟨ascii "HTTP/1.0 200 OK\r\n\r\nab", by decide, by decide⟩,
          .failed (ascii "reset")] = .ok exit ∧
      exit.code = -1 ∧ exit.stdout = ascii "ab" ∧ exit.Sound (ascii "a") := by
  obtain ⟨hsound, hexits⟩ := main_reports
    [ascii "http_client", ascii "host", ascii "1500", ascii "a"]
    ⟨true, none, none, none, [], none⟩
    [.data ⟨ascii "HTTP/1.0 200 OK\r\n\r\nab", by decide, by decide⟩, .failed (ascii "reset")]
  obtain ⟨exit, hrun⟩ := hexits.mpr (Or.inr (by decide +kernel))
  have hexit : exit =
      ⟨-1, ascii "ab", ascii "http_client: recv error: reset\n", requestStr (ascii "a")⟩ := by
    refine Except.ok.inj (hrun.symm.trans ?_)
    decide +kernel
  exact ⟨exit, hrun, by rw [hexit], by rw [hexit], hsound exit hrun⟩

end SimpleHttp
