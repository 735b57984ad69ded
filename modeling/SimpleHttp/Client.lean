import SimpleHttp.Request

namespace SimpleHttp

open Lib

/-!
# `http_client.c`

`Client.main` builds the request, connects, sends it in a loop, waits in `select` and then handles
the response: `headerLoop` collects received text in `headers` until it holds `\r\n\r\n`, the
status code is scanned from that buffer, and the rest is copied to stdout (code 200) or stderr.

Every received chunk is kept as a C string (`buf[res] = '\0'`, then `strcat` or `"%s"`), so what
the client sees of a chunk is `cstr c.bytes`; `texts` and `kept` are these strings for a list of
chunks.  `readResponse_data` says what the response handling does to a response that ends with an
orderly close: it behaves as `reply (texts cs)`, which knows nothing of the two loops.
-/

/-- What a run of the client leaves behind: the value returned (or passed to `exit`), what it
    wrote, and what it has put on the connection. -/
structure Exit where
  code : Int
  stdout : Bytes
  stderr : Bytes
  sent : Bytes
  deriving DecidableEq

/-- `perror(msg)` with the errno text of the failing call. -/
def perrorText (msg : Bytes) (errno : Bytes) : Bytes := msg ++ ascii ": " ++ errno ++ ascii "\n"

/-- Give up with a message on stderr and -1. -/
def die (err : Bytes) : Exit := ⟨-1, [], err, []⟩

/-! ### Handling the response -/

/-- `char headers[BUFSIZE * 5]`. -/
def headersSize : Nat := bufSize * 5

/-- How the header loop ends: with the client gone, or with the text in `headers` and the
    results of the `recv` calls still to come. -/
inductive HeaderLoop where
  | gone (exit : Exit)
  | got (headers : Bytes) (rest : List RecvResult)

/-- The first read loop.  `strcat` past the end of `headers` is undefined. -/
def headerLoop (headers : Bytes) : List RecvResult → Except Undefined HeaderLoop
  | .data c :: rest =>
      -- `buf[res] = '\0'`: all that follows an earlier zero byte is lost
      let text := cstr (c.bytes ++ [0])
      if headers.length + text.length < headersSize then
        let headers' := headers ++ text
        if (strstr headers' crlfcrlf).isSome then .ok (.got headers' rest)
        else headerLoop headers' rest
      else .error .headersOverflow
  | .failed errno :: _ => .ok (.gone (die (perrorText (ascii "recv error") errno)))
  | _ => .ok (.gone (die (ascii "server closed connection\n")))

/-- `"HTTP/%*s %d"`. -/
def statusFormat : List Directive :=
  [.lit 72, .lit 84, .lit 84, .lit 80, .lit 47, .skipStr, .space, .int]

/-- `int status_code = 0; sscanf(headers, "HTTP/%*s %d", &status_code);` -/
def statusCode (headers : Bytes) : Int :=
  match sscanf statusFormat (cstr headers) with
  | [.int v] => v
  | _ => 0

/-- The second read loop of either branch: what is written in the end, and the errno text if the
    last `recv` has failed. -/
def copyRest (out : Bytes) : List RecvResult → Bytes × Option Bytes
  | .data c :: rest => copyRest (out ++ cstr (c.bytes ++ [0])) rest
  | .failed errno :: _ => (out, some errno)
  | _ => (out, none)

/-- From the first `recv` to the end of `main`. -/
def readResponse (recvs : List RecvResult) : Except Undefined Exit :=
  match headerLoop [] recvs with
  | .error u => .error u
  | .ok (.gone exit) => .ok exit
  | .ok (.got headers rest) =>
      match strstr headers crlfcrlf with
      | none => .ok (die (ascii "http_client: invalid HTTP response - no header delimiter\n"))
      | some delim =>
          -- the part of the body that has arrived with the headers
          let bodyStart := delim.drop 4
          if statusCode headers = 200 then
            match copyRest bodyStart rest with
            | (out, some errno) =>
                .ok ⟨-1, out, perrorText (ascii "http_client: recv error") errno, []⟩
            | (out, none) => .ok ⟨0, out, [], []⟩
          else
            -- this branch does not look at how the loop has ended
            .ok ⟨-1, [], (copyRest headers rest).1, []⟩

/-! ### `main` -/

/-- What the client's calls report before it reads the response; `some errno` is a failure. -/
structure ClientEnv where
  asprintf : Bool
  socket : Option Bytes
  gethostbyname : Option Bytes
  connect : Option Bytes
  sends : List SendResult
  select : Option Bytes

/-- `asprintf(&req_str, "GET %s HTTP/1.0\r\n\r\n", server_path)`. -/
def requestStr (serverPath : Bytes) : Bytes :=
  ascii "GET " ++ serverPath ++ ascii " HTTP/1.0\r\n\r\n"

/-- The request loop and the `select` behind it: the bytes sent, or the client's end. -/
def sendRequest (serverPath : Bytes) (env : ClientEnv) : Except Exit Bytes :=
  let loop := sendLoop (requestStr serverPath) 0 env.sends
  let sent := sentBytes loop.calls
  match loop.failed, env.select with
  | some errno, _ => .error { die (perrorText (ascii "http_client: send error") errno) with sent }
  | none, some errno => .error { die (perrorText (ascii "select error") errno) with sent }
  | none, none => .ok sent

/-- Everything before the first `recv`; `argv[0]` to `argv[3]` are the program, the host, the port
    and the path. -/
def connectAndSend (argv : List Bytes) (env : ClientEnv) : Except Exit Bytes :=
  match argv with
  | [_, _, _, serverPath] =>
      if env.asprintf then
        match env.socket, env.gethostbyname, env.connect with
        | some errno, _, _ =>
            .error (die (perrorText (ascii "tcp_client: failed to create socket") errno))
        | none, some errno, _ =>
            .error (die (perrorText (ascii "tcp_client: gethostbyname error") errno))
        | none, none, some errno =>
            .error (die (perrorText (ascii "tcp_client: could not connect to server") errno))
        | none, none, none => sendRequest serverPath env
      else .error (die (ascii "Failed to allocate request string\n"))
  | _ => .error (die (ascii "usage: http_client <hostname> <port> <path>\n"))

/-- `main` of the client. -/
def Client.main (argv : List Bytes) (env : ClientEnv) (recvs : List RecvResult) :
    Except Undefined Exit :=
  match connectAndSend argv env with
  | .error exit => .ok exit
  | .ok sent =>
      match readResponse recvs with
      | .error u => .error u
      | .ok exit => .ok { exit with sent }

/-! ### The response as a list of texts -/

/-- What the client sees of each chunk. -/
def texts (cs : List Chunk) : List Bytes := cs.map fun c => cstr c.bytes

/-- What is left of a response when each chunk is cut at its first zero byte. -/
def kept (cs : List Chunk) : Bytes := (texts cs).flatten

/-- The chunks of a response, and the orderly close behind them. -/
def chunksThenClose (cs : List Chunk) : List RecvResult := cs.map .data ++ [.closed]

/-- The response handling as a function of the texts: search the end of the headers in them,
    then write everything behind it, or everything. -/
def reply (ts : List Bytes) : Except Undefined Exit :=
  match upTo crlfcrlf [] ts with
  | none =>
      if ts.flatten.length < headersSize then .ok (die (ascii "server closed connection\n"))
      else .error .headersOverflow
  | some (headers, rest) =>
      if headers.length < headersSize then
        if statusCode headers = 200 then
          .ok ⟨0, ((after crlfcrlf headers).getD []) ++ rest.flatten, [], []⟩
        else .ok ⟨-1, [], headers ++ rest.flatten, []⟩
      else .error .headersOverflow

@[simp] theorem texts_nil : texts [] = [] := rfl

@[simp] theorem texts_cons (c : Chunk) (cs : List Chunk) :
    texts (c :: cs) = cstr c.bytes :: texts cs := rfl

/-- No text holds a zero. -/
theorem zero_not_mem_texts {cs : List Chunk} {t : Bytes} (h : t ∈ texts cs) : 0 ∉ t := by
  obtain ⟨c, -, rfl⟩ := List.mem_map.mp h
  exact zero_not_mem_cstr _

theorem zero_not_mem_kept (cs : List Chunk) : 0 ∉ kept cs := by
  intro h
  obtain ⟨t, ht, hz⟩ := List.mem_flatten.mp h
  exact zero_not_mem_texts ht hz

/-- A response without zero bytes is seen as it is. -/
theorem texts_eq {cs : List Chunk} (h : 0 ∉ flat cs) : texts cs = cs.map Chunk.bytes := by
  refine List.map_congr_left fun c hc => cstr_eq_self fun hz => h ?_
  exact List.mem_flatten.mpr ⟨c.bytes, List.mem_map_of_mem hc, hz⟩

/-- Of a response without zero bytes everything is kept. -/
theorem kept_eq {cs : List Chunk} (h : 0 ∉ flat cs) : kept cs = flat cs := by
  rw [kept, texts_eq h, flat]

/-- In a text without a zero, `strstr` is a search. -/
theorem strstr_isSome_iff {s pat : Bytes} (h : 0 ∉ s) :
    (strstr s pat).isSome = true ↔ pat <:+: s := by
  rw [← not_iff_not, Option.not_isSome_iff_eq_none, strstr_eq_none_iff, cstr_eq_self h]

theorem zero_not_mem_append_cstr {acc : Bytes} (hz : 0 ∉ acc) (m : Bytes) :
    0 ∉ acc ++ cstr m := by
  rw [List.mem_append, not_or]
  exact ⟨hz, zero_not_mem_cstr m⟩

/-- The second loop writes what is kept of the chunks. -/
theorem copyRest_data (out : Bytes) (cs : List Chunk) :
    copyRest out (chunksThenClose cs) = (out ++ kept cs, none) := by
  induction cs generalizing out with
  | nil => simp [chunksThenClose, copyRest, kept]
  | cons c cs ih =>
    have htext : cstr (c.bytes ++ [0]) = cstr c.bytes := cstr_terminated _ _
    simp only [chunksThenClose, List.map_cons, List.cons_append, copyRest, htext] at ih ⊢
    rw [ih, kept, kept, texts_cons, List.flatten_cons, List.append_assoc]

/-- One turn of the header loop. -/
theorem headerLoop_cons {acc : Bytes} (hz : 0 ∉ acc) (c : Chunk) (cs : List Chunk) :
    headerLoop acc (chunksThenClose (c :: cs)) =
      if (acc ++ cstr c.bytes).length < headersSize then
        if crlfcrlf <:+: acc ++ cstr c.bytes then
          .ok (.got (acc ++ cstr c.bytes) (chunksThenClose cs))
        else headerLoop (acc ++ cstr c.bytes) (chunksThenClose cs)
      else .error .headersOverflow := by
  have htext : cstr (c.bytes ++ [0]) = cstr c.bytes := cstr_terminated _ _
  simp only [chunksThenClose, List.map_cons, List.cons_append, headerLoop, htext,
    strstr_isSome_iff (zero_not_mem_append_cstr hz c.bytes), List.length_append]

/-- **Header loop, no end of the headers.**  The loop sees the close, unless it has overrun
    `headers` by then. -/
theorem headerLoop_none {acc : Bytes} {cs : List Chunk} (hz : 0 ∉ acc)
    (hacc : acc.length < headersSize) (hup : upTo crlfcrlf acc (texts cs) = none) :
    headerLoop acc (chunksThenClose cs) =
      if (acc ++ kept cs).length < headersSize then
        .ok (.gone (die (ascii "server closed connection\n")))
      else .error .headersOverflow := by
  induction cs generalizing acc with
  | nil => simp [chunksThenClose, headerLoop, kept, hacc]
  | cons c cs ih =>
    rw [texts_cons, upTo] at hup
    split at hup
    · cases hup
    · rename_i hc
      rw [headerLoop_cons hz]
      by_cases hlen : (acc ++ cstr c.bytes).length < headersSize
      · rw [if_pos hlen, if_neg hc, ih (zero_not_mem_append_cstr hz _) hlen hup, kept, kept,
          texts_cons, List.flatten_cons, List.append_assoc]
      · -- what has been collected only grows, so it does not fit at the end either
        have hall : ¬ (acc ++ kept (c :: cs)).length < headersSize := by
          simp only [kept, texts_cons, List.flatten_cons, List.length_append] at hlen ⊢
          omega
        rw [if_neg hlen, if_neg hall]

/-- **Header loop.**  The loop stops with the first text that completes the end of the headers,
    unless it has overrun `headers` by then; the chunks behind it are still to be received. -/
theorem headerLoop_some {acc headers : Bytes} {cs : List Chunk} {rest : List Bytes} (hz : 0 ∉ acc)
    (hup : upTo crlfcrlf acc (texts cs) = some (headers, rest)) :
    ∃ ds, texts ds = rest ∧ headerLoop acc (chunksThenClose cs) =
      if headers.length < headersSize then .ok (.got headers (chunksThenClose ds))
      else .error .headersOverflow := by
  induction cs generalizing acc with
  | nil => cases hup
  | cons c cs ih =>
    rw [texts_cons, upTo] at hup
    rw [headerLoop_cons hz]
    split at hup
    · rename_i hc
      cases hup
      exact ⟨cs, rfl, by rw [if_pos hc]⟩
    · rename_i hc
      obtain ⟨ds, hds, hrun⟩ := ih (zero_not_mem_append_cstr hz _) hup
      refine ⟨ds, hds, ?_⟩
      by_cases hlen : (acc ++ cstr c.bytes).length < headersSize
      · rw [if_pos hlen, if_neg hc, hrun]
      · obtain ⟨used, t, -, rfl, -, -⟩ := upTo_eq_some hup
        have hall : ¬ (acc ++ cstr c.bytes ++ used.flatten ++ t).length < headersSize := by
          simp only [List.length_append] at hlen ⊢
          omega
        rw [if_neg hlen, if_neg hall]

/-- **Response handling.**  A response that ends with an orderly close is handled as `reply` has
    it. -/
theorem readResponse_data (cs : List Chunk) :
    readResponse (chunksThenClose cs) = reply (texts cs) := by
  have hnil : (0 : UInt8) ∉ ([] : Bytes) := List.not_mem_nil
  have hroom : ([] : Bytes).length < headersSize := by decide
  rw [readResponse, reply]
  cases hup : upTo crlfcrlf [] (texts cs) with
  | none =>
    rw [headerLoop_none hnil hroom hup, List.nil_append, kept]
    by_cases hlen : (texts cs).flatten.length < headersSize
    · simp only [if_pos hlen]
    · simp only [if_neg hlen]
  | some p =>
    obtain ⟨headers, rest⟩ := p
    obtain ⟨ds, rfl, hrun⟩ := headerLoop_some hnil hup
    rw [hrun]
    by_cases hlen : headers.length < headersSize
    · obtain ⟨used, t, -, -, hin, -⟩ := upTo_eq_some hup
      have hz : 0 ∉ headers := by
        intro hz
        apply zero_not_mem_kept cs
        rw [kept, ← List.nil_append (texts cs).flatten, ← upTo_flatten hup]
        exact List.mem_append_left _ hz
      -- the second `strstr` finds the delimiter again, and the body starts four bytes behind it
      obtain ⟨delim, hdelim⟩ := Option.isSome_iff_exists.mp ((strstr_isSome_iff hz).mpr hin)
      have hafter : after crlfcrlf headers = some (delim.drop 4) := by
        rw [strstr, cstr_eq_self hz] at hdelim
        rw [after, hdelim]
        rfl
      simp only [if_pos hlen, hdelim, hafter, copyRest_data, kept, Option.getD_some]
    · simp only [if_neg hlen]

end SimpleHttp
