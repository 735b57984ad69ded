import SimpleHttp.Lib.Runs
import SimpleHttp.Lib.Descriptors
import SimpleHttp.Reply

namespace SimpleHttp

open Lib

/-!
# The accept loop of `http_server1.c`, and what both servers leave in a log

* `Event` — what the `main` of a server does with a connection.
* `Server1.acceptLoop` — accept, handle, close, one connection after the other.
* `fdEvents` — the descriptors that the events open and close.
-/

/-- `FD_SETSIZE`. -/
def fdSetSize : Nat := 1024

/-- A connection, by the number of connections accepted before it. -/
abbrev ConnId := Nat

/-- What a server's `main` does, in order. -/
inductive Event where
  | selected (readFds : FdSet fdSetSize)   -- `select` has returned this set
  | accepted (fd : Fd) (id : ConnId)
  | handled (fd : Fd) (conn : Option ConnId) (out : Outcome)   -- `none` if `fd` is not open
  | closed (fd : Fd)
  | perror (msg : Bytes)
  | print (text : Bytes)
  deriving DecidableEq

/-- Handle a connection, report an error, close it. -/
def serve (srv : Server) (fd : Fd) (conn : Option ConnId) (out : Outcome) : List Event :=
  .handled fd conn out ::
    (if out.ret < 0 then [.print (srv.name ++ ascii ": error handling connection\n")] else []) ++
    [.closed fd]

/-- The connections handled, each with the bytes sent on it and the value returned. -/
def served (log : List Event) : List (Option ConnId × Bytes × Int) :=
  log.filterMap fun
    | .handled _ conn out => some (conn, out.sent, out.ret)
    | _ => none

@[simp] theorem served_append (a b : List Event) : served (a ++ b) = served a ++ served b :=
  List.filterMap_append

/-- To serve a connection is to serve this one. -/
@[simp] theorem served_serve (srv : Server) (fd : Fd) (conn : Option ConnId) (out : Outcome) :
    served (serve srv fd conn out) = [(conn, out.sent, out.ret)] := by
  unfold serve
  split <;> rfl

/-! ### `http_server1` -/

/-- One turn of the loop: what `accept` returns, and on success the handling of the connection. -/
def Server1.turn (fs : FileSystem) (conn : ConnId → ConnEnv) (log : List Event) :
    Option (Fd × ConnId) → Except Undefined (List Event)
  | none => .ok (log ++ [.perror (ascii "http_server1: accept error")])   -- `continue`
  | some (fd, id) =>
      match Server1.handleConnection fs (conn id) with
      | .error u => .error u
      | .ok out => .ok (log ++ .accepted fd id :: serve .httpServer1 fd (some id) out)

/-- The loop `while (1)` of `main`, over the results of its `accept` calls. -/
def Server1.acceptLoop (fs : FileSystem) (conn : ConnId → ConnEnv)
    (accepts : List (Option (Fd × ConnId))) : Except Undefined (List Event) :=
  run (Server1.turn fs conn) [] accepts

/-! ### Descriptors -/

/-- What a call opens or closes. -/
def Call.fdEvents : Call → List FdEvent
  | .fopen _ (some fd) => [.opened fd]
  | .fclose fd => [.closed fd]
  | _ => []

/-- What an event opens or closes. -/
def Event.fdEvents : Event → List FdEvent
  | .accepted fd _ => [.opened fd]
  | .handled _ _ out => out.calls.flatMap Call.fdEvents
  | .closed fd => [.closed fd]
  | _ => []

/-- The descriptors opened by `accept` and `fopen` and closed again, in order. -/
def fdEvents (log : List Event) : List FdEvent := log.flatMap Event.fdEvents

@[simp] theorem fdEvents_append (a b : List Event) :
    fdEvents (a ++ b) = fdEvents a ++ fdEvents b := List.flatMap_append

/-- A send loop opens and closes nothing. -/
theorem fdEvents_sendLoop (data : Bytes) (sent : Nat) (results : List SendResult) :
    (sendLoop data sent results).calls.flatMap Call.fdEvents = [] := by
  rw [List.flatMap_eq_nil_iff]
  intro c hc
  obtain ⟨offered, accepted, rfl⟩ := sendLoop_calls data sent results c hc
  rfl

/-- The body loop closes the file, once. -/
theorem fdEvents_bodyLoop (srv : Server) (fd : Fd) (buf rest : Bytes) (freads : List Nat)
    (sends : List SendResult) :
    (bodyLoop srv fd buf rest freads sends).calls.flatMap Call.fdEvents = [.closed fd] := by
  fun_induction bodyLoop srv fd buf rest freads sends with
  | case1 => simp [Call.fdEvents]
  | case2 => simp [Call.fdEvents]
  | case3 buf rest n freads sends block hne buf' loop errno hfail =>
    simp [Call.fdEvents, List.flatMap_append, List.flatMap_cons, loop, fdEvents_sendLoop]
  | case4 buf rest n freads sends block hne buf' loop hok next ih =>
    simpa [Call.fdEvents, List.flatMap_append, List.flatMap_cons, loop, fdEvents_sendLoop] using ih

/-- A reply opens the file and closes it, or finds none. -/
theorem fdEvents_respond (srv : Server) (fs : FileSystem) (env : ConnEnv) (buf filename : Bytes) :
    (respond srv fs env buf filename).calls.flatMap Call.fdEvents = [] ∨
      (respond srv fs env buf filename).calls.flatMap Call.fdEvents =
        [.opened env.fileFd, .closed env.fileFd] := by
  cases hfile : fs (cstr filename) with
  | none =>
    left
    simp only [respond, hfile, send404]
    split <;> rfl
  | some contents =>
    right
    simp only [respond, hfile, sendFile]
    split
    · rfl
    · simp [Call.fdEvents, List.flatMap_cons, fdEvents_bodyLoop]

/-- **Descriptors of `handle_connection`.**  On every path it opens nothing, or it opens the file
    and closes it. -/
theorem fdEvents_handleConnection {srv : Server} {fs : FileSystem} {env : ConnEnv} {out : Outcome}
    (h : handleConnection srv fs env = .ok out) :
    out.calls.flatMap Call.fdEvents = [] ∨
      out.calls.flatMap Call.fdEvents = [.opened env.fileFd, .closed env.fileFd] := by
  have hread : ∀ calls r, readLoop srv env.recvs clearBuf 0 = (calls, r) →
      calls.flatMap Call.fdEvents = [] := by
    intro calls r hr
    rw [List.flatMap_eq_nil_iff]
    intro c hc
    have hcalls := readLoop_calls srv env.recvs clearBuf 0
    rw [hr] at hcalls
    rcases hcalls c hc with ⟨_, _, rfl⟩ | ⟨_, rfl⟩ <;> rfl
  rcases handleConnection_cases h with ⟨calls, hr, rfl⟩ | ⟨calls, buf, hr, -, rfl⟩ |
    ⟨calls, buf, req, hr, -, rfl⟩
  · exact Or.inl (hread _ _ hr)
  · left
    rw [List.flatMap_append, hread _ _ hr]
    rfl
  · rw [List.flatMap_append, hread _ _ hr, List.nil_append]
    exact fdEvents_respond srv fs env buf _

/-! ### The two copies of `handle_connection` -/

/-- Both servers read alike, but for the name in their messages. -/
theorem readLoop_copies (srv srv' : Server) (results : List RecvResult) (buf : Bytes)
    (totalLen : Nat) :
    (readLoop srv results buf totalLen).2 = (readLoop srv' results buf totalLen).2 := by
  fun_induction readLoop srv results buf totalLen with
  | case1 buf totalLen hlt asked c rest got buf' hfound =>
    rw [readLoop, if_pos hlt]
    dsimp only
    rw [if_pos hfound]
  | case2 buf totalLen hlt asked c rest got buf' hno next ih =>
    rw [readLoop, if_pos hlt]
    dsimp only
    rw [if_neg hno]
    exact ih
  | case3 buf totalLen hlt asked errno rest => rw [readLoop, if_pos hlt]
  | case4 results buf totalLen hlt asked hdata hfailed =>
    rw [readLoop, if_pos hlt]
    cases results with
    | nil => rfl
    | cons r rest =>
      cases r with
      | data c => exact absurd rfl (hdata c rest)
      | failed errno => exact absurd rfl (hfailed errno rest)
      | closed => rfl
  | case5 results buf totalLen hge => rw [readLoop, if_neg hge]

/-- Both servers send a file alike. -/
theorem bodyLoop_copies (srv srv' : Server) (fd : Fd) (buf rest : Bytes) (freads : List Nat)
    (sends : List SendResult) :
    (bodyLoop srv fd buf rest freads sends).sent = (bodyLoop srv' fd buf rest freads sends).sent ∧
      (bodyLoop srv fd buf rest freads sends).ret =
        (bodyLoop srv' fd buf rest freads sends).ret := by
  induction freads generalizing buf rest sends with
  | nil => exact ⟨rfl, rfl⟩
  | cons n freads ih =>
    simp only [bodyLoop]
    by_cases hblock : rest.take (min n bufSize) = []
    · simp only [if_pos hblock, and_self]
    · simp only [if_neg hblock]
      split
      · simp [Outcome.sent, sentBytes]
      · obtain ⟨hsent, hret⟩ := ih (poke buf 0 (rest.take (min n bufSize)))
          (rest.drop (rest.take (min n bufSize)).length) _
        refine ⟨?_, hret⟩
        simp only [Outcome.sent, List.cons_append, sentBytes, sentBytes_append] at hsent ⊢
        rw [hsent]

/-- Both servers reply alike. -/
theorem respond_copies (srv srv' : Server) (fs : FileSystem) (env : ConnEnv)
    (buf filename : Bytes) :
    (respond srv fs env buf filename).sent = (respond srv' fs env buf filename).sent ∧
      (respond srv fs env buf filename).ret = (respond srv' fs env buf filename).ret := by
  cases hfile : fs (cstr filename) with
  | none =>
    simp only [respond, hfile, send404]
    split <;> exact ⟨rfl, rfl⟩
  | some contents =>
    simp only [respond, hfile, sendFile]
    split
    · exact ⟨rfl, rfl⟩
    · obtain ⟨hsent, hret⟩ := bodyLoop_copies srv srv' env.fileFd buf contents env.freads
        (sendOnce (okResponse (fileSize contents)) env.sends).2
      refine ⟨?_, hret⟩
      simp only [Outcome.sent, sentBytes] at hsent ⊢
      rw [hsent]

/-- **The copies agree.**  Over the same results of their calls, the two programs'
    `handle_connection` put the same bytes on the connection and return the same value. -/
theorem handleConnection_copies (srv srv' : Server) {fs : FileSystem} {env : ConnEnv}
    {out : Outcome} (h : handleConnection srv fs env = .ok out) :
    ∃ out', handleConnection srv' fs env = .ok out' ∧ out'.sent = out.sent ∧
      out'.ret = out.ret := by
  have hcopy := readLoop_copies srv' srv env.recvs clearBuf 0
  have hquiet := sentBytes_readLoop srv env.recvs clearBuf 0
  have hquiet' := sentBytes_readLoop srv' env.recvs clearBuf 0
  -- the buffers are the same, and the calls only differ in messages, which are not sent
  cases hread' : readLoop srv' env.recvs clearBuf 0 with
  | mk calls' r' =>
    rw [hread'] at hcopy hquiet'
    rcases handleConnection_cases h with ⟨calls, hread, rfl⟩ | ⟨calls, buf, hread, hparse, rfl⟩ |
      ⟨calls, buf, req, hread, hparse, rfl⟩
    · rw [hread] at hcopy hquiet
      obtain rfl : r' = none := hcopy
      refine ⟨⟨calls', -1⟩, by rw [handleConnection, hread'], ?_, rfl⟩
      rw [Outcome.sent, Outcome.sent, hquiet, hquiet']
    · rw [hread] at hcopy hquiet
      obtain rfl : r' = some buf := hcopy
      refine ⟨⟨calls' ++ [.eprint (srv'.name ++ ascii ": failed to parse request\n")], -1⟩,
        by rw [handleConnection, hread']; simp only [hparse], ?_, rfl⟩
      simp only [Outcome.sent, sentBytes_append, hquiet, hquiet', sentBytes]
    · rw [hread] at hcopy hquiet
      obtain rfl : r' = some buf := hcopy
      obtain ⟨hsent, hret⟩ := respond_copies srv' srv fs env buf (extractFilename req.path)
      refine ⟨_, handleConnection_parsed fs hread' hparse, ?_, hret⟩
      simp only [Outcome.sent] at hsent ⊢
      rw [sentBytes_append, sentBytes_append, hquiet, hquiet', hsent]

end SimpleHttp
