import SimpleHttp.ReplyHead

namespace SimpleHttp

open Lib

/-!
# The announced length

`file_size` is an `int`, and the number in the head is printed from it, while the body loop goes by
what `fread` returns.

* `okResponse_injective` — the head tells the number.
* `fileSize_eq_iff` — the conversion to `int` keeps the sizes below 2 GiB.
* `tellsLength_iff` — without a failing call, these are the files whose announced length is what
  follows the head.
-/

/-- The heads of two different numbers differ. -/
theorem okResponse_injective {v w : Int} (h : okResponse v = okResponse w) : v = w := by
  unfold okResponse at h
  exact decimal_injective (List.append_cancel_left (List.append_cancel_right h))

/-- The head of the reply for `name` announces the number of bytes sent behind it. -/
def TellsLength (name : Bytes) (out : Outcome) : Prop :=
  ∃ before fd v res body,
    out.calls = before ++ .fopen name fd :: .send (okResponse v) res :: body ∧
      ((sentBytes body).length : Int) = v

/-- `int` holds the size of a file below 2 ^ 31 bytes. -/
theorem fileSize_eq_iff (contents : Bytes) :
    fileSize contents = contents.length ↔ contents.length < 2 ^ 31 := by
  have hhi := Int.bmod_lt (x := (contents.length : Int)) (m := 2 ^ 32) (by decide)
  unfold fileSize toInt32
  constructor
  · intro h
    rw [h] at hhi
    omega
  · intro h
    apply Int.bmod_eq_of_le <;> omega

/-- Where no send fails, the one send does not. -/
theorem sendOnce_of_allAccepted (data : Bytes) {sends : List SendResult} (h : AllAccepted sends) :
    ∃ n, (sendOnce data sends).1 = some n := by
  cases sends with
  | nil => exact ⟨_, rfl⟩
  | cons r sends =>
    obtain ⟨n, rfl⟩ := h r List.mem_cons_self
    exact ⟨_, rfl⟩

/-- Without a failing call, the announced number is the size of the file as an `int`, and what
    follows is the file. -/
theorem tellsLength_iff_fileSize {srv : Server} {fs : FileSystem} {env : ConnEnv} {out : Outcome}
    {name contents : Bytes} (hrun : handleConnection srv fs env = .ok out)
    (hopen : fopened out.calls = [name]) (hfile : fs name = some contents)
    (hsends : AllAccepted env.sends) (hblocks : Blocks contents env.freads) :
    out.ret = 0 ∧ (TellsLength name out ↔ fileSize contents = contents.length) := by
  obtain ⟨reads, buf, filename, hreads, -, hname, hcalls, hret⟩ :=
    handleConnection_reaches hrun hopen
  rw [← hname] at hfile
  obtain ⟨n, hsend⟩ := sendOnce_of_allAccepted (okResponse (fileSize contents)) hsends
  obtain ⟨hreply, hbody⟩ := respond_accepted srv hfile buf hsend
  have hlater : AllAccepted (sendOnce (okResponse (fileSize contents)) env.sends).2 :=
    allAccepted_sendOnce hsends
  have hbodyret : (replyBody srv env buf (some contents)).ret = 0 :=
    bodyLoop_ret_of_allAccepted _ _ _ _ _ _ hlater
  have hbodysent : sentBytes (replyBody srv env buf (some contents)).calls = contents :=
    bodyLoop_complete _ _ _ _ _ _ hblocks hlater
  rw [hreply, hname] at hcalls
  rw [hbody, hbodyret] at hret
  refine ⟨hret, ?_⟩
  constructor
  · rintro ⟨before, fd, v, res, body, heq, hv⟩
    -- the head found in the calls is the one that was sent
    rw [hcalls] at heq
    obtain ⟨hhead, -, rfl⟩ := reply_split hreads (fopened_replyBody srv env buf _) heq
    rw [hbodysent] at hv
    rw [hv]
    exact (okResponse_injective hhead).symm
  · intro h
    refine ⟨reads, _, _, _, _, hcalls, ?_⟩
    rw [hbodysent, h]

/-- **Announced length.**  With no call failing, whatever the blocks and the short sends, the call
    returns 0, and the head announces the number of bytes that follow it exactly if the file is
    smaller than 2 GiB. -/
theorem tellsLength_iff {srv : Server} {fs : FileSystem} {env : ConnEnv} {out : Outcome}
    {name contents : Bytes} (hrun : handleConnection srv fs env = .ok out)
    (hopen : fopened out.calls = [name]) (hfile : fs name = some contents)
    (hsends : AllAccepted env.sends) (hblocks : Blocks contents env.freads) :
    out.ret = 0 ∧ (TellsLength name out ↔ contents.length < 2 ^ 31) := by
  rw [← fileSize_eq_iff]
  exact tellsLength_iff_fileSize hrun hopen hfile hsends hblocks

/-- The reply of that run. -/
theorem tellsLength_replyForA : replyForA.ret = 0 ∧ TellsLength (ascii "a") replyForA := by
  obtain ⟨hret, hiff⟩ := tellsLength_iff replyForA_run rfl rfl
    (fun _ h => absurd h List.not_mem_nil) ⟨by decide, by decide⟩
  exact ⟨hret, hiff.mpr (by decide)⟩

/-- Asked for `/a`, the server opens `a`. -/
theorem opens_a (contents : Bytes) (freads : List Nat) :
    ∃ out, Server1.handleConnection (fun _ => some contents) (readInBlocks freads) = .ok out ∧
      fopened out.calls = [ascii "a"] := by
  obtain ⟨calls, buf, req, hread, hparse, hname⟩ : ∃ calls buf req,
      readLoop .httpServer1 [.data requestForA] clearBuf 0 = (calls, some buf) ∧
        parseRequest buf = .ok (some req) ∧ cstr (extractFilename req.path) = ascii "a" :=
    ⟨_, _, _, rfl, rfl, by decide +kernel⟩
  have hnone := fopened_readLoop .httpServer1 [.data requestForA] clearBuf 0
  rw [hread] at hnone
  refine ⟨_, handleConnection_parsed _ hread hparse, ?_⟩
  rw [fopened_append, hnone, fopened_respond, hname]
  rfl

/-- A file of 2 GiB. -/
def hugeFile : Bytes := List.replicate (2 ^ 31) 0

/-- The head announces -2147483648 bytes, and 2147483648 follow. -/
theorem not_tellsLength_hugeFile :
    fileSize hugeFile = -2147483648 ∧ hugeFile.length = 2147483648 ∧
      ∃ out, Server1.handleConnection (fun _ => some hugeFile)
          (readInBlocks (List.replicate (2 ^ 21) 1024)) = .ok out ∧
        fopened out.calls = [ascii "a"] ∧ out.ret = 0 ∧ ¬ TellsLength (ascii "a") out := by
  have hlen : hugeFile.length = 2147483648 := List.length_replicate
  have hsize : fileSize hugeFile = -2147483648 := by
    rw [fileSize, hlen]
    decide
  have hblocks : Blocks hugeFile (List.replicate (2 ^ 21) 1024) := by
    refine ⟨fun n hn => ?_, ?_⟩
    · rw [(List.mem_replicate.mp hn).2]
      decide
    · rw [hlen, List.sum_replicate]
      norm_num
  obtain ⟨out, hrun, hopen⟩ := opens_a hugeFile (List.replicate (2 ^ 21) 1024)
  obtain ⟨hret, hiff⟩ := tellsLength_iff_fileSize hrun hopen rfl
    (fun _ h => absurd h List.not_mem_nil) hblocks
  refine ⟨hsize, hlen, out, hrun, hopen, hret, fun h => ?_⟩
  rw [hiff, hsize, hlen] at h
  omega

end SimpleHttp
