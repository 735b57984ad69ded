import SimpleHttp.Lib.Format
import SimpleHttp.Socket

namespace SimpleHttp

open Lib

/-!
# `handle_connection`, first half — reading and parsing the request

`http_server1.c` and `http_server2.c` hold the same `handle_connection` but for the program's
name in its messages, so the functions here take the `Server`.

* `readLoop` — receive into `buf` until it holds `\r\n\r\n`.
* `parseRequest` — `sscanf(buf, "%s %s %s", method, path, version)`.  The conversions have no
  width, so a token that does not fit its array is undefined behaviour.
* `extractFilename` — the path without its first slash, copied into `filename`.
-/

/-- The two programs that hold a copy of `handle_connection`. -/
inductive Server where
  | httpServer1
  | httpServer2
  deriving DecidableEq

/-- The name the program puts in front of its messages. -/
def Server.name : Server → Bytes
  | .httpServer1 => ascii "http_server1"
  | .httpServer2 => ascii "http_server2"

/-- Behaviour that C leaves undefined. -/
inductive Undefined where
  | tokenOverflow   -- `sscanf` writes past `method`, `path` or `version`
  | headersOverflow   -- `strcat` writes past `headers`
  | fdOutOfRange (fd : Fd)   -- a descriptor from `FD_SETSIZE` on in an `fd_set` macro
  deriving DecidableEq, Repr

/-- The size of `filename`, and of `path`. -/
def filenameSize : Nat := 100

/-- `"\r\n\r\n"`, the end of the headers. -/
def crlfcrlf : Bytes := [13, 10, 13, 10]

/-- The end of the request is not the empty text. -/
theorem crlfcrlf_ne_nil : crlfcrlf ≠ [] := by decide

/-- `"\r\n"`, the end of a line. -/
def crlf : Bytes := [13, 10]

/-- The text before its first line end. -/
def firstLine (text : Bytes) : Bytes := before crlf text

/-! ### The read loop -/

/-- The loop `while (total_len < BUFSIZE - 1)`: the calls it makes and the buffer it leaves, or
    `none` if it returns -1. -/
def readLoop (srv : Server) (results : List RecvResult) (buf : Bytes) (totalLen : Nat) :
    List Call × Option Bytes :=
  if totalLen < bufSize - 1 then
    let asked := bufSize - 1 - totalLen
    match results with
    | .data c :: rest =>
        let got := c.bytes.take asked
        -- `recv` writes at `buf + total_len`, and `buf[total_len] = '\0'` behind that
        let buf' := poke (poke buf totalLen got) (totalLen + got.length) [0]
        if (strstr buf' crlfcrlf).isSome then ([.recv asked (some got)], some buf')
        else
          let next := readLoop srv rest buf' (totalLen + got.length)
          (.recv asked (some got) :: next.1, next.2)
    | .failed _ :: _ =>
        ([.recv asked none, .perror (srv.name ++ ascii ": recv error")], none)
    | _ =>
        -- nothing listed any more: the peer has closed
        ([.recv asked (some []), .perror (srv.name ++ ascii ": recv error")], none)
  else
    -- the buffer is full: it is parsed although the headers have not ended
    ([], some buf)

/-- `char buf[BUFSIZE]` after its `memset`. -/
def clearBuf : Bytes := List.replicate bufSize 0

/-- The bytes of a list of chunks. -/
def flat (cs : List Chunk) : Bytes := (cs.map Chunk.bytes).flatten

@[simp] theorem flat_nil : flat [] = [] := rfl

@[simp] theorem flat_cons (c : Chunk) (cs : List Chunk) : flat (c :: cs) = c.bytes ++ flat cs := rfl

@[simp] theorem flat_append (cs ds : List Chunk) : flat (cs ++ ds) = flat cs ++ flat ds := by
  simp [flat]

/-- Chunks as successive `recv` calls of the loop return them: as long as the bytes received do
    not hold the end of the headers, the next chunk is at most as long as the loop asks. -/
def Fits (acc : Bytes) (cs : List Chunk) : Prop :=
  ∀ pre c post, cs = pre ++ c :: post → ¬ crlfcrlf <:+: acc ++ flat pre →
    (acc ++ flat pre).length + c.bytes.length ≤ bufSize - 1

/-- The next chunk fits what is left of the buffer. -/
theorem Fits.head {acc : Bytes} {c : Chunk} {cs : List Chunk} (h : Fits acc (c :: cs))
    (hacc : ¬ crlfcrlf <:+: acc) : acc.length + c.bytes.length ≤ bufSize - 1 := by
  simpa using h [] c cs rfl (by simpa using hacc)

/-- The chunks behind it fit too. -/
theorem Fits.tail {acc : Bytes} {c : Chunk} {cs : List Chunk} (h : Fits acc (c :: cs)) :
    Fits (acc ++ c.bytes) cs := by
  intro pre d post hcs hno
  have := h (c :: pre) d post (by rw [hcs, List.cons_append]) (by simpa using hno)
  simpa [List.append_assoc] using this

/-- Chunks that fit the buffer together are returned by any `recv` calls. -/
theorem fits_of_length {acc : Bytes} {cs : List Chunk}
    (h : (acc ++ flat cs).length ≤ bufSize - 1) : Fits acc cs := by
  rintro pre c post rfl -
  simp only [flat_append, flat_cons, List.length_append] at h ⊢
  omega

/-- After a chunk has been stored, the buffer starts with everything received so far and a
    terminating zero, and keeps its size. -/
theorem stored_chunk {acc slack got : Bytes} (hlen : acc.length + slack.length = bufSize)
    (hgot : acc.length + got.length ≤ bufSize - 1) :
    ∃ slack', poke (poke (acc ++ slack) acc.length got) (acc.length + got.length) [0]
        = (acc ++ got) ++ 0 :: slack' ∧ (acc ++ got).length + (0 :: slack').length = bufSize := by
  refine ⟨slack.drop (got.length + 1), ?_, ?_⟩
  · rw [poke_append, ← List.length_append, poke_append]
    simp [List.drop_drop]
  · have hbuf : 0 < bufSize := by decide
    simp only [List.length_cons, List.length_drop, List.length_append]
    omega

/-- **Read loop on a zero-free stream.**  The loop receives exactly the shortest run of chunks
    that contains the end of the headers, and leaves it as the C string in its buffer. -/
theorem readLoop_upTo (srv : Server) {cs : List Chunk} (results : List RecvResult)
    {acc slack h : Bytes} {rest : List Bytes}
    (hz : 0 ∉ acc ++ flat cs) (hlen : acc.length + slack.length = bufSize)
    (hno : ¬ crlfcrlf <:+: acc) (hfits : Fits acc cs)
    (hup : upTo crlfcrlf acc (cs.map Chunk.bytes) = some (h, rest)) :
    ∃ calls buf, readLoop srv (cs.map .data ++ results) (acc ++ slack) acc.length
        = (calls, some buf) ∧ cstr buf = h ∧ fopened calls = [] ∧ sentBytes calls = [] ∧
      ∃ used, cs.map Chunk.bytes = used ++ rest ∧ received calls = used.map some := by
  induction cs generalizing acc slack with
  | nil => cases hup
  | cons c cs ih =>
    have hroom : acc.length + c.bytes.length ≤ bufSize - 1 := hfits.head hno
    have hpos : 0 < c.bytes.length := List.length_pos_iff.mpr c.nonempty
    have hlt : acc.length < bufSize - 1 := by omega
    -- the loop asks for at least as much as the chunk holds
    have htake : c.bytes.take (bufSize - 1 - acc.length) = c.bytes :=
      List.take_of_length_le (by omega)
    obtain ⟨slack', hstore, hlen'⟩ := stored_chunk hlen hroom
    rw [flat_cons, ← List.append_assoc] at hz
    have hzc : 0 ∉ acc ++ c.bytes := fun hm => hz (List.mem_append_left _ hm)
    have hcstr : cstr ((acc ++ c.bytes) ++ 0 :: slack') = acc ++ c.bytes := by
      rw [cstr_terminated, cstr_eq_self hzc]
    have hstr : (strstr ((acc ++ c.bytes) ++ 0 :: slack') crlfcrlf).isSome ↔
        crlfcrlf <:+: acc ++ c.bytes := by
      rw [← not_iff_not, Option.not_isSome_iff_eq_none, strstr_eq_none_iff, hcstr]
    rw [List.map_cons, List.cons_append, readLoop, if_pos hlt]
    simp only [htake, hstore]
    rw [List.map_cons, upTo] at hup
    by_cases hc : crlfcrlf <:+: acc ++ c.bytes
    · -- this chunk completes the end of the headers
      rw [if_pos hc] at hup
      cases hup
      rw [if_pos (hstr.mpr hc)]
      exact ⟨_, _, rfl, hcstr, rfl, rfl, [c.bytes], rfl, rfl⟩
    · -- it does not, and the loop goes on behind a longer text
      rw [if_neg hc] at hup
      rw [if_neg (fun hs => hc (hstr.mp hs)), ← List.length_append]
      obtain ⟨calls, buf, hrun, hbuf, hopen, hsent, used, hused, hrecv⟩ :=
        ih hz hlen' hc hfits.tail hup
      rw [hrun]
      refine ⟨_, _, rfl, hbuf, ?_, ?_, c.bytes :: used, by simp [hused], ?_⟩
      · simpa [fopened] using hopen
      · simpa [sentBytes] using hsent
      · simpa [received] using hrecv

/-! ### Parsing the request -/

/-- `char method[10]` and `char version[10]`. -/
def methodSize : Nat := 10
/-- `char version[10]`. -/
def versionSize : Nat := 10

/-- A parsed request: three tokens that fit their arrays with the terminating zero. -/
structure Request where
  method : Bytes
  path : Bytes
  version : Bytes
  method_lt : method.length < methodSize
  path_lt : path.length < filenameSize
  version_lt : version.length < versionSize

/-- `"%s %s %s"`. -/
def requestFormat : List Directive := [.str, .space, .str, .space, .str]

/-- The sizes of the arrays the three conversions write to. -/
def tokenSizes : List Nat := [methodSize, filenameSize, versionSize]

/-- `sscanf(buf, "%s %s %s", method, path, version) != 3`; `none` if it is not 3. -/
def parseRequest (buf : Bytes) : Except Undefined (Option Request) :=
  match sscanf requestFormat (cstr buf) with
  | [.str method, .str path, .str version] =>
      if h : method.length < methodSize ∧ path.length < filenameSize ∧
          version.length < versionSize then
        .ok (some ⟨method, path, version, h.1, h.2.1, h.2.2⟩)
      else .error .tokenOverflow
  | toks =>
      -- the tokens scanned before the text ended have been written all the same
      if (tokenSizes.zip toks).all fun
          | (size, .str tok) => tok.length < size
          | _ => true
      then .ok none
      else .error .tokenOverflow

/-- The text of a request that `sscanf` splits into three tokens. -/
theorem sscanf_request {m p v g : Bytes} (hm : IsWord m) (hp : IsWord p) (hv : IsWord v)
    (hg : EndsWord g) :
    sscanf requestFormat (m ++ 32 :: (p ++ 32 :: (v ++ g))) = [.str m, .str p, .str v] := by
  have hsp : ∀ s : Bytes, EndsWord (32 :: s) := by
    intro s b hb
    obtain rfl : 32 = b := by simpa using hb
    decide
  have hone : ∀ b ∈ ([32] : Bytes), isspace b = true := by decide
  have hskip : ∀ {w : Bytes}, IsWord w → ∀ (s : Bytes) (ds : List Directive),
      sscanf (.space :: ds) (32 :: (w ++ s)) = sscanf ds (w ++ s) := by
    intro w hw s ds
    rw [show 32 :: (w ++ s) = [32] ++ (w ++ s) from rfl, sscanf_space_append hone]
    simp only [sscanf, skipSpace_of_word hw]
  rw [requestFormat, sscanf_str hm (hsp _), hskip hp, sscanf_str hp (hsp _), hskip hv,
    sscanf_str hv hg]
  rfl

/-- The three tokens of a parsed request are words of the text in the buffer. -/
theorem parseRequest_isWord {buf : Bytes} {req : Request}
    (h : parseRequest buf = .ok (some req)) : IsWord req.path ∧ req.path ⊆ cstr buf := by
  unfold parseRequest at h
  split at h
  · rename_i method path version hscan
    have hmem : .str path ∈ sscanf requestFormat (cstr buf) := by
      rw [hscan]
      simp
    split at h
    · cases h
      exact isWord_of_mem_sscanf hmem
    · cases h
  · split at h <;> cases h

/-- A token holds no zero. -/
theorem zero_not_mem_path {buf : Bytes} {req : Request}
    (h : parseRequest buf = .ok (some req)) : 0 ∉ req.path :=
  fun hz => zero_not_mem_cstr buf ((parseRequest_isWord h).2 hz)

/-- The request for `/a`, received in one piece. -/
def requestForA : Chunk := ⟨ascii "GET /a HTTP/1.0\r\n\r\n", by decide, by decide⟩

/-! ### The file name -/

/-- The path behind its first character, if that is a slash. -/
def stripSlash : Bytes → Bytes
  | 47 :: rest => rest
  | path => path

/-- The array `filename` after the two `strncpy` branches and its termination. -/
def extractFilename (path : Bytes) : Bytes :=
  match path with
  | 47 :: rest => strncpy rest (filenameSize - 1) ++ [0]
  | path => strncpy path (filenameSize - 1) ++ [0]

/-- The name is the path without its slash, cut off where `filename` ends. -/
theorem extractFilename_eq (path : Bytes) :
    extractFilename path = strncpy (stripSlash path) (filenameSize - 1) ++ [0] := by
  unfold extractFilename stripSlash
  split <;> rfl

/-- The name is the end of the path. -/
theorem stripSlash_suffix (path : Bytes) : stripSlash path <:+ path := by
  unfold stripSlash
  split
  · exact List.suffix_cons _ _
  · exact List.suffix_refl _

/-- A path that fits its array is copied whole. -/
theorem cstr_extractFilename {path : Bytes} (hz : 0 ∉ path) (hlen : path.length < filenameSize) :
    cstr (extractFilename path) = stripSlash path := by
  have hsuf := stripSlash_suffix path
  rw [extractFilename_eq, cstr_strncpy (fun h => hz (hsuf.subset h))]
  exact List.take_of_length_le (by have := hsuf.length_le; omega)

end SimpleHttp
