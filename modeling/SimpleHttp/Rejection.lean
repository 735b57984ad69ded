import SimpleHttp.Reply
import SimpleHttp.Tokens

namespace SimpleHttp

open Lib

/-!
# Which requests are rejected

The request line ends with the first `\r\n`, but `sscanf` takes a line end for white space like any
other and reads its three tokens wherever it finds them, and a full buffer is parsed although the
headers have not ended.

* `WellFormed` — the request has ended, and its first line holds three tokens.
* `rejects_iff` — what `handle_connection` rejects.
* `handleConnection_rejection_iff` — when it rejects whatever is not well formed.
-/

/-- A whole request, with three tokens in the request line. -/
structure WellFormed (text : Bytes) : Prop where
  complete : crlfcrlf <:+: text
  tokens : 3 ≤ (words (firstLine text)).length

/-- The call returns -1, has opened no file and sent nothing. -/
def Rejects (result : Except Undefined Outcome) : Prop :=
  ∃ out, result = .ok out ∧ out.ret = -1 ∧ fopened out.calls = [] ∧ out.sent = []

/-- **Rejection.**  A request is rejected if the bytes received do not stop the loop, or if they
    hold fewer than three words, none of which overruns its array. -/
theorem rejects_iff (srv : Server) (fs : FileSystem) (env : ConnEnv) :
    Rejects (handleConnection srv fs env) ↔
      (Stops (delivered [] env.recvs) →
        TokensFit (cstr (delivered [] env.recvs)) ∧
          (words (cstr (delivered [] env.recvs))).length < 3) := by
  obtain ⟨-, hnone, hcstr⟩ := readLoop_delivered srv env.recvs
  have hopened := fopened_readLoop srv env.recvs clearBuf 0
  have hsent := sentBytes_readLoop srv env.recvs clearBuf 0
  obtain ⟨calls, result, hread⟩ : ∃ calls result,
      readLoop srv env.recvs clearBuf 0 = (calls, result) := ⟨_, _, rfl⟩
  rw [hread] at hnone hcstr hopened hsent
  cases result with
  | none =>
    -- the loop has given up
    have hgives : ¬ Stops (delivered [] env.recvs) := hnone.mp rfl
    rw [handleConnection, hread]
    simp only [hgives, false_implies, iff_true]
    exact ⟨⟨calls, -1⟩, rfl, rfl, hopened, hsent⟩
  | some buf =>
    have hstops : Stops (delivered [] env.recvs) := by
      by_contra hno
      cases hnone.mpr hno
    rw [← hcstr buf rfl]
    simp only [hstops, true_implies]
    rcases parseRequest_cases buf with ⟨hfit, hparse⟩ | ⟨hfit, hlt, hparse⟩ |
      ⟨hfit, hge, req, hparse⟩
    · -- a token overruns its array
      have hrun : handleConnection srv fs env = .error .tokenOverflow := by
        rw [handleConnection, hread]
        simp only [hparse]
      rw [hrun]
      simp [Rejects, hfit]
    · -- `sscanf` has found fewer than three
      have hrun : handleConnection srv fs env =
          .ok ⟨calls ++ [.eprint (srv.name ++ ascii ": failed to parse request\n")], -1⟩ := by
        rw [handleConnection, hread]
        simp only [hparse]
      refine ⟨fun _ => ⟨hfit, hlt⟩, fun _ => ⟨_, hrun, rfl, ?_, ?_⟩⟩
      · rw [fopened_append, hopened]
        rfl
      · rw [Outcome.sent, sentBytes_append, hsent]
        rfl
    · -- with three tokens, a file is asked for
      constructor
      · rintro ⟨out, hout, -, hno, -⟩
        rw [handleConnection_parsed fs hread hparse] at hout
        cases hout
        rw [fopened_append, fopened_respond] at hno
        simp at hno
      · rintro ⟨-, hlt⟩
        omega

/-- **Malformed requests.**  What is not well formed is rejected, exactly if the bytes that stop
    the loop either are well formed or hold fewer than three words in all, of a size that fits. -/
theorem handleConnection_rejection_iff (srv : Server) (fs : FileSystem) (env : ConnEnv) :
    (¬ WellFormed (delivered [] env.recvs) → Rejects (handleConnection srv fs env)) ↔
      (Stops (delivered [] env.recvs) → WellFormed (delivered [] env.recvs) ∨
        TokensFit (cstr (delivered [] env.recvs)) ∧
          (words (cstr (delivered [] env.recvs))).length < 3) := by
  rw [rejects_iff]
  constructor
  · intro h hstops
    by_cases hwell : WellFormed (delivered [] env.recvs)
    · exact Or.inl hwell
    · exact Or.inr (h hwell hstops)
  · intro h hwell hstops
    exact (h hstops).resolve_left hwell

/-- A request line of two tokens, with a header line behind it. -/
def twoTokens : Chunk := ⟨ascii "GET /a\r\nHost: b\r\n\r\n", by decide, by decide⟩

/-- The third token is taken from the header line, and the file is sent. -/
theorem handleConnection_not_rejected :
    (¬ WellFormed (delivered [] [.data twoTokens])) ∧
      ∃ out, Server1.handleConnection (fun _ => some (ascii "abc"))
        ⟨[.data twoTokens], 5, [3], []⟩ = .ok out ∧
      out.ret = 0 ∧ fopened out.calls = [ascii "a"] ∧ out.sent ≠ [] := by
  refine ⟨fun h => ?_, _, rfl, rfl, rfl, by decide +kernel⟩
  have h3 := h.tokens
  revert h3
  decide +kernel

end SimpleHttp
