import SimpleHttp.Truncation

namespace SimpleHttp

open Lib

/-!
# The head of the reply

The 200 head and the 404 reply go out in one `send` each, and any positive result counts as
success, where the body loop offers the rest again.

* `respond_refused`, `respond_accepted` — the reply, from `fopen` on, by the result of this send.
* `HeadsWhole` — a return value of 0 means that the whole head has been sent, and nothing is sent
  behind a part of it.
* `headsWhole_iff` — for which results of the calls this holds.
-/

/-- What follows the head: the body loop if there is a file. -/
def replyBody (srv : Server) (env : ConnEnv) (buf : Bytes) : Option Bytes → Outcome
  | none => ⟨[], 0⟩
  | some contents => bodyLoop srv env.fileFd buf contents env.freads
      (sendOnce (okResponse (fileSize contents)) env.sends).2

/-- The first call of the reply. -/
def openCall (env : ConnEnv) (name : Bytes) (file : Option Bytes) : Call :=
  .fopen name (file.map fun _ => env.fileFd)

/-- The head of the reply is not accepted: -1, and nothing has been sent. -/
theorem respond_refused (srv : Server) {fs : FileSystem} {env : ConnEnv} {filename : Bytes}
    {file : Option Bytes} (hfile : fs (cstr filename) = file) (buf : Bytes)
    (h : (sendOnce (replyHead file) env.sends).1 = none) :
    ∃ after, fopened after = [] ∧ (respond srv fs env buf filename).calls =
        openCall env (cstr filename) file :: .send (replyHead file) none :: after ∧
      (respond srv fs env buf filename).ret = -1 := by
  subst hfile
  cases hopen : fs (cstr filename) with
  | none =>
    rw [hopen, replyHead] at h
    simp only [respond, hopen, send404, h, and_true]
    exact ⟨_, rfl, rfl⟩
  | some contents =>
    rw [hopen, replyHead] at h
    simp only [respond, hopen, sendFile, h, and_true]
    exact ⟨_, rfl, rfl⟩

/-- The head of the reply is accepted, at least in part: the rest of the reply follows. -/
theorem respond_accepted (srv : Server) {fs : FileSystem} {env : ConnEnv} {filename : Bytes}
    {file : Option Bytes} (hfile : fs (cstr filename) = file) (buf : Bytes) {n : Nat}
    (h : (sendOnce (replyHead file) env.sends).1 = some n) :
    (respond srv fs env buf filename).calls = openCall env (cstr filename) file ::
        .send (replyHead file) (some n) :: (replyBody srv env buf file).calls ∧
      (respond srv fs env buf filename).ret = (replyBody srv env buf file).ret := by
  subst hfile
  cases hopen : fs (cstr filename) with
  | none =>
    rw [hopen, replyHead] at h
    simp only [respond, hopen, send404, h]
    exact ⟨rfl, rfl⟩
  | some contents =>
    rw [hopen, replyHead] at h
    simp only [respond, hopen, sendFile, h]
    exact ⟨rfl, rfl⟩

/-- Behind the head, the file and nothing else. -/
theorem prefix_sent_replyBody (srv : Server) (env : ConnEnv) (buf : Bytes) (file : Option Bytes) :
    (replyBody srv env buf file).sent <+: file.getD [] := by
  cases file with
  | none => exact List.prefix_refl []
  | some contents => exact (prefix_sent_bodyLoop ..).trans (freadBytes_bodyLoop ..)

/-- Nothing more is opened. -/
theorem fopened_replyBody (srv : Server) (env : ConnEnv) (buf : Bytes) (file : Option Bytes) :
    fopened (replyBody srv env buf file).calls = [] := by
  cases file with
  | none => rfl
  | some contents => exact fopened_of_isReply (isReply_bodyLoop srv env.fileFd buf contents _ _)

/-! ### A body that is refused at once -/

/-- The first send of a loop puts something on the connection, unless it fails. -/
theorem sentBytes_sendLoop_eq_nil_iff {data : Bytes} (hne : data ≠ []) (results : List SendResult) :
    sentBytes (sendLoop data 0 results).calls = [] ↔
      ∃ errno rest, results = .failed errno :: rest := by
  have hpos : 0 < data.length := List.length_pos_iff.mpr hne
  unfold sendLoop
  rw [if_pos hpos]
  cases results with
  | nil => simp [sentBytes, hne]
  | cons r rest =>
    cases r with
    | failed errno => simp [sentBytes]
    | accepted n =>
      have hn : ¬ (n : Nat) = 0 := n.ne_zero
      simp [sentBytes, hne, hn]

/-- The body loop fails without sending anything, exactly if there is a first block and its first
    send fails. -/
theorem bodyLoop_refused_iff (srv : Server) (fd : Fd) (buf rest : Bytes) (freads : List Nat)
    (sends : List SendResult) :
    ((bodyLoop srv fd buf rest freads sends).ret ≠ 0 ∧
        (bodyLoop srv fd buf rest freads sends).sent = []) ↔
      (rest ≠ [] ∧ ∃ n later, freads = n :: later ∧ 0 < n) ∧
        ∃ errno later, sends = .failed errno :: later := by
  have hbuf : bufSize ≠ 0 := by decide
  cases freads with
  | nil => simp [bodyLoop]
  | cons n later =>
    have hmin : min n bufSize = 0 ↔ n = 0 := by omega
    have hblock : rest.take (min n bufSize) = [] ↔ n = 0 ∨ rest = [] := by
      rw [List.take_eq_nil_iff, hmin]
    rw [bodyLoop]
    by_cases hnil : rest.take (min n bufSize) = []
    · -- the file is over at once
      simp only [if_pos hnil]
      rw [hblock] at hnil
      refine iff_of_false (fun h => h.1 rfl) ?_
      rintro ⟨⟨hrest, m, later', heq, hm⟩, -⟩
      cases heq
      rcases hnil with rfl | rfl
      · omega
      · exact hrest rfl
    · simp only [if_neg hnil, take_poke_block]
      have hfirst := sentBytes_sendLoop_eq_nil_iff hnil sends
      rw [hblock, not_or] at hnil
      have hdue : rest ≠ [] ∧ ∃ m later', n :: later = m :: later' ∧ 0 < m :=
        ⟨hnil.2, n, later, rfl, by omega⟩
      cases hfail : (sendLoop (rest.take (min n bufSize)) 0 sends).failed with
      | some errno =>
        rw [and_iff_right hdue, ← hfirst]
        simp [Outcome.sent, sentBytes]
      | none =>
        -- the first block is sent whole
        have hsent : sentBytes (sendLoop (rest.take (min n bufSize)) 0 sends).calls ≠ [] := by
          rw [sentBytes_sendLoop_of_none hfail, List.drop_zero]
          rw [← not_or, ← hblock] at hnil
          exact hnil
        rw [and_iff_right hdue, ← hfirst]
        simp [Outcome.sent, sentBytes, hsent]

/-! ### The head in one piece -/

/-- With 0 returned, the head and then a part of the file are on the connection; behind a part of
    the head nothing is. -/
structure HeadsWhole (file : Option Bytes) (out : Outcome) : Prop where
  whole : out.ret = 0 → ∃ part, out.sent = replyHead file ++ part ∧ part <+: file.getD []
  quiet : ∀ before name fd n after,
    out.calls = before ++ .fopen name fd :: .send (replyHead file) (some n) :: after →
      n < (replyHead file).length → sentBytes after = []

/-- A head that is refused is not followed by anything. -/
theorem headsWhole_of_refused {file : Option Bytes} {out : Outcome} {reads after : List Call}
    {name : Bytes} {fd : Option Fd} (hreads : fopened reads = []) (hafter : fopened after = [])
    (hcalls : out.calls = reads ++ .fopen name fd :: .send (replyHead file) none :: after)
    (hret : out.ret = -1) : HeadsWhole file out where
  whole h0 := by
    rw [hret] at h0
    cases h0
  quiet before name' fd' n post heq := by
    rw [hcalls] at heq
    obtain ⟨-, hres, -⟩ := reply_split hreads hafter heq
    cases hres

/-- A head that is accepted is kept whole, exactly if a part of it is followed by a failure and by
    no byte of the body. -/
theorem headsWhole_accepted_iff {file : Option Bytes} {out body : Outcome} {reads : List Call}
    {name : Bytes} {fd : Option Fd} {n : Nat} (hreads : fopened reads = [])
    (hsilent : sentBytes reads = []) (hbody : fopened body.calls = [])
    (hcalls : out.calls =
      reads ++ .fopen name fd :: .send (replyHead file) (some n) :: body.calls)
    (hret : out.ret = body.ret) (hpart : body.sent <+: file.getD []) :
    HeadsWhole file out ↔ (n < (replyHead file).length → body.ret ≠ 0 ∧ body.sent = []) := by
  have hsent : out.sent = (replyHead file).take n ++ body.sent := by
    rw [Outcome.sent, hcalls, sentBytes_append, hsilent]
    rfl
  constructor
  · intro h hlt
    have hnil : body.sent = [] := h.quiet _ _ _ n _ hcalls hlt
    refine ⟨fun h0 => ?_, hnil⟩
    -- with 0 returned, a part of the head would be the whole of it
    obtain ⟨part, hwhole, -⟩ := h.whole (hret.trans h0)
    rw [hsent, hnil, List.append_nil] at hwhole
    have hlen := congrArg List.length hwhole
    rw [List.length_take, List.length_append] at hlen
    omega
  · intro h
    refine ⟨fun h0 => ⟨body.sent, ?_, hpart⟩, fun before name' fd' m after heq hlt => ?_⟩
    · have hge : (replyHead file).length ≤ n := by
        by_contra hlt
        exact (h (by omega)).1 (hret.symm.trans h0)
      rw [hsent, List.take_of_length_le hge]
    · -- there is one place where the calls can be cut behind the head
      rw [hcalls] at heq
      obtain ⟨-, hres, rfl⟩ := reply_split hreads hbody heq
      cases hres
      exact (h hlt).2

/-- The first send does not accept a part of the head only, or there is a first block of the file
    and its first send fails. -/
def HeadSettled (env : ConnEnv) (file : Option Bytes) : Prop :=
  ∀ n later, env.sends = .accepted n :: later → (n : Nat) < (replyHead file).length →
    (file.getD [] ≠ [] ∧ ∃ m freads, env.freads = m :: freads ∧ 0 < m) ∧
      ∃ errno rest, later = .failed errno :: rest

/-- A head cut short is settled if nothing follows and -1 is returned. -/
theorem headSettled_iff (srv : Server) (env : ConnEnv) (buf : Bytes) (file : Option Bytes) :
    HeadSettled env file ↔ ∀ n, (sendOnce (replyHead file) env.sends).1 = some n →
      n < (replyHead file).length →
        (replyBody srv env buf file).ret ≠ 0 ∧ (replyBody srv env buf file).sent = [] := by
  have hbody : ∀ later, (sendOnce (replyHead file) env.sends).2 = later →
      ((replyBody srv env buf file).ret ≠ 0 ∧ (replyBody srv env buf file).sent = [] ↔
        (file.getD [] ≠ [] ∧ ∃ m freads, env.freads = m :: freads ∧ 0 < m) ∧
          ∃ errno rest, later = .failed errno :: rest) := by
    rintro _ rfl
    cases file with
    | none => simp [replyBody]
    | some contents => exact bodyLoop_refused_iff ..
  unfold HeadSettled
  cases hsends : env.sends with
  | nil => simp [sendOnce]
  | cons r later =>
    cases r with
    | failed errno => simp [sendOnce]
    | accepted m =>
      rw [hsends] at hbody
      rw [hbody later rfl]
      simp [sendOnce]

/-- **Reply heads.**  A reply keeps its head whole, exactly if the first send does not accept a part
    of it only, or the file has a first block whose first send fails. -/
theorem headsWhole_iff {srv : Server} {fs : FileSystem} {env : ConnEnv} {out : Outcome}
    {name : Bytes} (hrun : handleConnection srv fs env = .ok out)
    (hopen : fopened out.calls = [name]) :
    HeadsWhole (fs name) out ↔ HeadSettled env (fs name) := by
  obtain ⟨reads, buf, filename, hreads, hsilent, hname, hcalls, hret⟩ :=
    handleConnection_reaches hrun hopen
  have hfile : fs (cstr filename) = fs name := by rw [hname]
  rw [headSettled_iff srv env buf]
  cases hsend : (sendOnce (replyHead (fs name)) env.sends).1 with
  | none =>
    obtain ⟨after, hafter, hreply, hfail⟩ := respond_refused srv hfile buf hsend
    rw [hreply] at hcalls
    rw [hfail] at hret
    exact iff_of_true (headsWhole_of_refused hreads hafter hcalls hret) (by simp)
  | some n =>
    obtain ⟨hreply, hbody⟩ := respond_accepted srv hfile buf hsend
    rw [hreply] at hcalls
    rw [hbody] at hret
    rw [headsWhole_accepted_iff hreads hsilent (fopened_replyBody srv env buf _) hcalls hret
      (prefix_sent_replyBody srv env buf _)]
    simp

/-- The reply to a request for `/a`, a file of three bytes, with all of it accepted at once. -/
def replyForA : Outcome where
  calls := [.recv 1023 (some (ascii "GET /a HTTP/1.0\r\n\r\n")), .fopen (ascii "a") (some 5),
    .send (okResponse (fileSize (ascii "abc"))) (some (okResponse (fileSize (ascii "abc"))).length),
    .fread (ascii "abc"), .send (ascii "abc") (some 3), .fread [], .fclose 5]
  ret := 0

/-- The run that gives it. -/
theorem replyForA_run :
    Server1.handleConnection (fun _ => some (ascii "abc")) (readInBlocks [3]) = .ok replyForA := rfl

/-- Its head is whole. -/
theorem headsWhole_replyForA : HeadsWhole (some (ascii "abc")) replyForA := by
  refine (headsWhole_iff replyForA_run rfl).mpr ?_
  rintro n later ⟨⟩

/-- The kernel accepts five bytes of the head: the server returns 0 with the rest of it not sent,
    and the file behind the five bytes. -/
theorem heads_cut :
    ∃ out, Server1.handleConnection (fun _ => some (ascii "abc"))
        ⟨[.data requestForA], 5, [3], [.accepted 5]⟩ = .ok out ∧
      fopened out.calls = [ascii "a"] ∧ out.ret = 0 ∧ out.sent = ascii "HTTP/abc" ∧
      ¬ HeadsWhole (some (ascii "abc")) out := by
  have hno : ∀ out : Outcome, out.ret = 0 → out.sent = ascii "HTTP/abc" →
      ¬ HeadsWhole (some (ascii "abc")) out := by
    intro out hret hsent h
    obtain ⟨part, hpart, -⟩ := h.whole hret
    have hlen := congrArg List.length (hsent.symm.trans hpart)
    have hshort : (ascii "HTTP/abc").length < (replyHead (some (ascii "abc"))).length := by
      decide +kernel
    rw [List.length_append] at hlen
    omega
  exact ⟨_, rfl, rfl, rfl, by decide +kernel, hno _ rfl (by decide +kernel)⟩

end SimpleHttp
