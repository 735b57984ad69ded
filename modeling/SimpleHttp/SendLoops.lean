import SimpleHttp.Transfer

namespace SimpleHttp

open Lib

/-!
# The send loops

The servers send each block of a file, and the client its request, by offering the rest again until
all of it has been accepted.

* `InOrder` — the calls put the data on the connection from its front on, and all of it unless a
  send fails.
* `sendLoop_inOrder`, `bodyLoop_inOrder` — both loops do, for any results of their calls.
* `sendLoops_inOrder` — and they are left with everything sent, or by an error return.
-/

/-- A `send`. -/
def Call.isSend : Call → Bool
  | .send .. => true
  | _ => false

/-- An `fread`. -/
def Call.isFread : Call → Bool
  | .fread .. => true
  | _ => false

/-- An `fclose`. -/
def Call.isFclose : Call → Bool
  | .fclose .. => true
  | _ => false

/-- The calls send `data` without losing, repeating or reordering a byte, and all of it if `ok`;
    otherwise a send has failed, one of `results` being a failure, and nothing is sent behind it. -/
structure InOrder (data : Bytes) (calls : List Call) (results : List SendResult) (ok : Prop) :
    Prop where
  running : ∀ pre, pre <+: calls → sentBytes pre <+: data
  whole : ok → sentBytes calls = data
  cut : ¬ ok → ∃ before d after, calls = before ++ .send d none :: after ∧
    (∀ e, .send e none ∉ before) ∧ (∀ c ∈ after, c.isSend = false) ∧
    sentBytes calls = sentBytes before
  failed : ¬ ok → ∃ errno, .failed errno ∈ results
  sends_le : calls.countP Call.isSend ≤ data.length

/-- Without a failure among the results, every send is accepted. -/
theorem exists_failed {results : List SendResult} (h : ¬ AllAccepted results) :
    ∃ errno, .failed errno ∈ results := by
  by_contra hno
  refine h fun r hr => ?_
  cases r with
  | accepted n => exact ⟨n, rfl⟩
  | failed errno => exact absurd ⟨errno, hr⟩ hno

/-- More calls put more on the connection. -/
theorem sentBytes_mono {pre calls : List Call} (h : pre <+: calls) :
    sentBytes pre <+: sentBytes calls := by
  obtain ⟨post, rfl⟩ := h
  rw [sentBytes_append]
  exact List.prefix_append _ _

/-! ### One send loop -/

/-- Every send that is accepted takes at least one byte. -/
theorem length_sendLoop_le (data : Bytes) (sent : Nat) (results : List SendResult) :
    (sendLoop data sent results).calls.length ≤ data.length - sent := by
  fun_induction sendLoop data sent results with
  | case1 sent hlt =>
    rw [List.length_singleton]
    omega
  | case2 sent hlt errno rest =>
    rw [List.length_singleton]
    omega
  | case3 sent hlt n rest res next ih =>
    -- the bytes accepted here pay for this call, those still to send for the others
    have hn : 0 < (n : Nat) := n.pos
    show next.calls.length + 1 ≤ data.length - sent
    replace ih : next.calls.length ≤ data.length - (sent + res) := ih
    omega
  | case4 sent results hge => exact Nat.zero_le _

/-- A failed send is the last one. -/
theorem calls_of_failed {data : Bytes} {sent : Nat} {results : List SendResult} {errno : Bytes}
    (h : (sendLoop data sent results).failed = some errno) :
    ∃ before d, (sendLoop data sent results).calls = before ++ [.send d none] ∧
      ∀ e, .send e none ∉ before := by
  fun_induction sendLoop data sent results with
  | case1 sent hlt => cases h
  | case2 sent hlt e rest => exact ⟨[], _, rfl, fun _ => List.not_mem_nil⟩
  | case3 sent hlt n rest res next ih =>
    obtain ⟨before, d, hcalls, hno⟩ := ih h
    refine ⟨.send (data.drop sent) (some res) :: before, d, ?_, fun e he => ?_⟩
    · rw [List.cons_append, ← hcalls]
    · exact hno e (by simpa using he)
  | case4 sent results hge => cases h

/-- **Send loop.** -/
theorem sendLoop_inOrder (data : Bytes) (results : List SendResult) :
    InOrder data (sendLoop data 0 results).calls results
      ((sendLoop data 0 results).failed = none) where
  running pre hpre := by
    apply (sentBytes_mono hpre).trans
    simpa using prefix_sentBytes_sendLoop data 0 results
  whole hok := by simpa using sentBytes_sendLoop_of_none hok
  cut hcut := by
    obtain ⟨errno, herrno⟩ := Option.ne_none_iff_exists'.mp hcut
    obtain ⟨before, d, hcalls, hno⟩ := calls_of_failed herrno
    refine ⟨before, d, [], hcalls, hno, fun c hc => absurd hc List.not_mem_nil, ?_⟩
    rw [hcalls, sentBytes_append]
    simp [sentBytes]
  failed hcut := exists_failed fun hall => hcut (failed_sendLoop_of_allAccepted hall)
  sends_le := List.countP_le_length.trans (length_sendLoop_le data 0 results)

/-! ### The body loop -/

/-- After a failed send the body loop reports it and closes the file. -/
theorem bodyLoop_cut (srv : Server) (fd : Fd) (buf rest : Bytes) (freads : List Nat)
    (sends : List SendResult) (hret : (bodyLoop srv fd buf rest freads sends).ret ≠ 0) :
    ∃ before d msg, (bodyLoop srv fd buf rest freads sends).calls =
        before ++ [.send d none, .perror msg, .fclose fd] ∧ ∀ e, .send e none ∉ before := by
  fun_induction bodyLoop srv fd buf rest freads sends with
  | case1 => exact absurd rfl hret
  | case2 => exact absurd rfl hret
  | case3 buf rest n freads sends block hne buf' loop errno hfail =>
    -- the failed send is the last of this block's loop
    obtain ⟨before, d, hcalls, hno⟩ := calls_of_failed hfail
    refine ⟨.fread block :: before, d, srv.name ++ ascii ": send error", ?_, fun e he => ?_⟩
    · show .fread block :: loop.calls ++ _ = _
      rw [hcalls]
      simp
    · exact hno e (by simpa using he)
  | case4 buf rest n freads sends block hne buf' loop hok next ih =>
    -- no send of this block has failed
    obtain ⟨before, d, msg, hcalls, hno⟩ := ih hret
    refine ⟨.fread block :: loop.calls ++ before, d, msg, ?_, fun e he => ?_⟩
    · show .fread block :: loop.calls ++ next.calls = _
      rw [hcalls, List.append_assoc]
    · rcases List.mem_append.mp he with he | he
      · exact (failed_sendLoop_iff _ _ _).mp hok e (by simpa using he)
      · exact hno e he

/-- The file is closed once, by the last call. -/
theorem fclose_bodyLoop (srv : Server) (fd : Fd) (buf rest : Bytes) (freads : List Nat)
    (sends : List SendResult) :
    ∃ init, (bodyLoop srv fd buf rest freads sends).calls = init ++ [.fclose fd] ∧
      ∀ c ∈ init, c.isFclose = false := by
  have hquiet : ∀ {data : Bytes} {results : List SendResult},
      ∀ c ∈ (sendLoop data 0 results).calls, c.isFclose = false := by
    intro data results c hc
    obtain ⟨offered, accepted, rfl⟩ := sendLoop_calls data 0 results c hc
    rfl
  -- the loop has three ways out, each with a `fclose` before the `return`; the fourth case goes on
  fun_induction bodyLoop srv fd buf rest freads sends with
  | case1 => exact ⟨[.fread []], rfl, by simp [Call.isFclose]⟩
  | case2 => exact ⟨[.fread []], rfl, by simp [Call.isFclose]⟩
  | case3 buf rest n freads sends block hne buf' loop errno hfail =>
    refine ⟨.fread block :: loop.calls ++ [.perror (srv.name ++ ascii ": send error")], by simp,
      fun c hc => ?_⟩
    rcases List.mem_append.mp hc with hc | hc
    · rcases List.mem_cons.mp hc with rfl | hc
      · rfl
      · exact hquiet c hc
    · obtain rfl := List.mem_singleton.mp hc
      rfl
  | case4 buf rest n freads sends block hne buf' loop hok next ih =>
    obtain ⟨init, hcalls, hinit⟩ := ih
    refine ⟨.fread block :: loop.calls ++ init, ?_, fun c hc => ?_⟩
    · show .fread block :: loop.calls ++ next.calls = _
      rw [hcalls, List.append_assoc]
    · rcases List.mem_append.mp hc with hc | hc
      · rcases List.mem_cons.mp hc with rfl | hc
        · rfl
        · exact hquiet c hc
      · exact hinit c hc

/-- Every send takes at least one byte of the file. -/
theorem sends_bodyLoop_le (srv : Server) (fd : Fd) (buf rest : Bytes) (freads : List Nat)
    (sends : List SendResult) :
    (bodyLoop srv fd buf rest freads sends).calls.countP Call.isSend ≤ rest.length := by
  fun_induction bodyLoop srv fd buf rest freads sends with
  | case1 => simp [Call.isSend]
  | case2 => simp [Call.isSend]
  | case3 buf rest n freads sends block hne buf' loop errno hfail =>
    have hloop : loop.calls.countP Call.isSend ≤ block.length :=
      (sendLoop_inOrder _ sends).sends_le.trans (List.length_take_le _ _)
    have hblock : block.length ≤ rest.length := List.length_take_le' _ _
    simp [Call.isSend]
    omega
  | case4 buf rest n freads sends block hne buf' loop hok next ih =>
    have hloop : loop.calls.countP Call.isSend ≤ block.length :=
      (sendLoop_inOrder _ sends).sends_le.trans (List.length_take_le _ _)
    have hblock : block.length ≤ rest.length := List.length_take_le' _ _
    replace ih : next.calls.countP Call.isSend ≤ (rest.drop block.length).length := ih
    rw [List.length_drop] at ih
    simp [Call.isSend]
    omega

/-- A send loop reads nothing. -/
theorem countP_isFread_sendLoop (data : Bytes) (results : List SendResult) :
    (sendLoop data 0 results).calls.countP Call.isFread = 0 := by
  rw [List.countP_eq_zero]
  intro c hc
  obtain ⟨offered, accepted, rfl⟩ := sendLoop_calls data 0 results c hc
  exact Bool.false_ne_true

/-- Every `fread` but the last takes at least one byte of the file. -/
theorem freads_bodyLoop_le (srv : Server) (fd : Fd) (buf rest : Bytes) (freads : List Nat)
    (sends : List SendResult) :
    (bodyLoop srv fd buf rest freads sends).calls.countP Call.isFread ≤ rest.length + 1 := by
  fun_induction bodyLoop srv fd buf rest freads sends with
  | case1 => simp [List.countP_cons, Call.isFread]
  | case2 => simp [List.countP_cons, Call.isFread]
  | case3 buf rest n freads sends block hne buf' loop errno hfail =>
    simp [List.countP_cons, Call.isFread, loop, countP_isFread_sendLoop]
  | case4 buf rest n freads sends block hne buf' loop hok next ih =>
    -- the block is not empty, so what is left of the file is shorter
    have hpos : 0 < block.length := List.length_pos_iff.mpr hne
    have hblock : block.length ≤ rest.length := List.length_take_le' _ _
    replace ih : next.calls.countP Call.isFread ≤ (rest.drop block.length).length + 1 := ih
    rw [List.length_drop] at ih
    simp [List.countP_cons, Call.isFread, loop, countP_isFread_sendLoop]
    omega

/-- **Body loop.** -/
theorem bodyLoop_inOrder (srv : Server) (fd : Fd) (buf : Bytes) {contents : Bytes}
    {freads : List Nat} (hblocks : Blocks contents freads) (sends : List SendResult) :
    InOrder contents (bodyLoop srv fd buf contents freads sends).calls sends
      ((bodyLoop srv fd buf contents freads sends).ret = 0) where
  running pre hpre := (sentBytes_mono hpre).trans
    ((prefix_sent_bodyLoop ..).trans (freadBytes_bodyLoop ..))
  whole hret := bodyLoop_whole srv fd buf contents freads sends hblocks hret
  cut hret := by
    obtain ⟨before, d, msg, hcalls, hno⟩ := bodyLoop_cut srv fd buf contents freads sends hret
    refine ⟨before, d, [.perror msg, .fclose fd], hcalls, hno, by simp [Call.isSend], ?_⟩
    rw [hcalls, sentBytes_append]
    simp [sentBytes]
  failed hret := exists_failed fun hall =>
    hret (bodyLoop_ret_of_allAccepted srv fd buf contents freads sends hall)
  sends_le := sends_bodyLoop_le srv fd buf contents freads sends

/-! ### Both programs -/

/-- **The send loops.**  In the servers' body loop and in the client's request loop no byte is lost,
    repeated or reordered: what has been sent is always a prefix, and all of it unless a send
    fails.  Then the servers return -1 with the file closed, and the client exits with -1. -/
theorem sendLoops_inOrder (srv : Server) (fd : Fd) (buf : Bytes) {contents : Bytes}
    {freads : List Nat} (hblocks : Blocks contents freads) (sends : List SendResult)
    (serverPath : Bytes) (cenv : ClientEnv) :
    let out := bodyLoop srv fd buf contents freads sends
    let loop := sendLoop (requestStr serverPath) 0 cenv.sends
    (InOrder contents out.calls sends (out.ret = 0) ∧ (out.ret = 0 ∨ out.ret = -1) ∧
      (∃ init, out.calls = init ++ [.fclose fd] ∧ ∀ c ∈ init, c.isFclose = false) ∧
      out.calls.countP Call.isFread ≤ contents.length + 1) ∧
    InOrder (requestStr serverPath) loop.calls cenv.sends (loop.failed = none) ∧
      (∀ sent, sendRequest serverPath cenv = .ok sent →
        loop.failed = none ∧ sent = requestStr serverPath) ∧
      (loop.failed ≠ none → ∃ exit, sendRequest serverPath cenv = .error exit ∧
        exit.code = -1 ∧ exit.sent = sentBytes loop.calls) := by
  intro out loop
  refine ⟨⟨bodyLoop_inOrder srv fd buf hblocks sends, ?_, fclose_bodyLoop ..,
    freads_bodyLoop_le ..⟩, sendLoop_inOrder _ _, fun sent hsent => ?_, fun hfail => ?_⟩
  · rcases bodyLoop_ret srv fd buf contents freads sends with ⟨hret, -⟩ | ⟨hret, -⟩
    · exact Or.inl hret
    · exact Or.inr hret
  · simp only [sendRequest] at hsent
    split at hsent
    · cases hsent
    · cases hsent
    · rename_i hok hselect
      cases hsent
      exact ⟨hok, (sendLoop_inOrder _ _).whole hok⟩
  · obtain ⟨errno, herrno⟩ := Option.ne_none_iff_exists'.mp hfail
    refine ⟨_, by simp only [sendRequest, loop] at herrno ⊢; rw [herrno], rfl, rfl⟩

/-- A file of three bytes in two blocks; the second send fails. -/
theorem sendLoops_inOrder_cut :
    InOrder (ascii "abc")
      (bodyLoop .httpServer1 5 clearBuf (ascii "abc") [1, 2] [.accepted 1, .failed []]).calls
      [.accepted 1, .failed []]
      ((bodyLoop .httpServer1 5 clearBuf (ascii "abc") [1, 2] [.accepted 1, .failed []]).ret = 0) :=
  (sendLoops_inOrder .httpServer1 5 clearBuf ⟨by decide, by decide⟩ _ [] ⟨true, none, none, none,
    [], none⟩).1.1

end SimpleHttp
