import SimpleHttp.Lib.Runs
import SimpleHttp.Request

namespace SimpleHttp

open Lib

/-!
# The buffer of the read loop

`readTurn` is one turn of the loop `while (total_len < BUFSIZE - 1)` on an explicit state, and
`readLoop_run` says that `readLoop` is the run of these turns.

* `Exact` — the buffer holds exactly the bytes received, with a zero behind them.
* `Reading`, `Left` — the states between the turns, and the states the loop is left in.
* `readLoop_exact` — every turn keeps them, and the loop ends.
* `delivered` — the bytes the loop receives, told without a buffer; `readLoop_delivered` says that
  it receives these and leaves them as the string in its buffer.
-/

/-! ### One turn of the loop -/

/-- The buffer, `total_len` and the calls made so far. -/
structure ReadState where
  buf : Bytes
  totalLen : Nat
  calls : List Call

/-- How the loop is left: by its `break`, by its condition, or with -1. -/
inductive Leave where
  | found
  | full
  | closed
  | failed
  deriving DecidableEq

/-- The state in front of the loop. -/
def ReadState.start : ReadState := ⟨clearBuf, 0, []⟩

/-- A `recv` for all the room left, with its result. -/
def ReadState.recv (s : ReadState) (got : Option Bytes) : ReadState :=
  { s with calls := s.calls ++ [.recv (bufSize - 1 - s.totalLen) got] }

/-- The state behind a `recv` that has stored `got`. -/
def ReadState.store (s : ReadState) (got : Bytes) : ReadState :=
  { s.recv (some got) with
    buf := poke (poke s.buf s.totalLen got) (s.totalLen + got.length) [0]
    totalLen := s.totalLen + got.length }

/-- One turn of the loop: the next state, or how it is left. -/
def readTurn (s : ReadState) (result : RecvResult) : Except (Leave × ReadState) ReadState :=
  if s.totalLen < bufSize - 1 then
    match result with
    | .data c =>
        let s' := s.store (c.bytes.take (bufSize - 1 - s.totalLen))
        if (strstr s'.buf crlfcrlf).isSome then .error (.found, s') else .ok s'
    | .closed => .error (.closed, s.recv (some []))
    | .failed _ => .error (.failed, s.recv none)
  else .error (.full, s)

/-- What `handle_connection` makes of it: it goes on with the buffer, or reports and gives up. -/
def Leave.result (srv : Server) (s : ReadState) : Leave → List Call × Option Bytes
  | .found | .full => (s.calls, some s.buf)
  | .closed | .failed => (s.calls ++ [.perror (srv.name ++ ascii ": recv error")], none)

/-- Everything one turn can do. -/
theorem readTurn_cases (s : ReadState) (result : RecvResult) :
    (¬ s.totalLen < bufSize - 1 ∧ readTurn s result = .error (.full, s)) ∨
    (s.totalLen < bufSize - 1 ∧ result = .closed ∧
      readTurn s result = .error (.closed, s.recv (some []))) ∨
    (s.totalLen < bufSize - 1 ∧ (∃ errno, result = .failed errno) ∧
      readTurn s result = .error (.failed, s.recv none)) ∨
    (s.totalLen < bufSize - 1 ∧ ∃ c t, result = .data c ∧
      t = s.store (c.bytes.take (bufSize - 1 - s.totalLen)) ∧
      readTurn s result =
        if (strstr t.buf crlfcrlf).isSome then .error (.found, t) else .ok t) := by
  by_cases hlt : s.totalLen < bufSize - 1
  · cases result with
    | data c => exact Or.inr (Or.inr (Or.inr ⟨hlt, c, _, rfl, rfl, if_pos hlt⟩))
    | closed => exact Or.inr (Or.inl ⟨hlt, rfl, if_pos hlt⟩)
    | failed errno => exact Or.inr (Or.inr (Or.inl ⟨hlt, ⟨errno, rfl⟩, if_pos hlt⟩))
  · exact Or.inl ⟨hlt, if_neg hlt⟩

/-- A turn of `readLoop` that receives bytes. -/
theorem readLoop_data (srv : Server) {s t : ReadState} (hlt : s.totalLen < bufSize - 1) (c : Chunk)
    (rest : List RecvResult) (ht : t = s.store (c.bytes.take (bufSize - 1 - s.totalLen))) :
    (s.calls ++ (readLoop srv (.data c :: rest) s.buf s.totalLen).1,
      (readLoop srv (.data c :: rest) s.buf s.totalLen).2) =
        if (strstr t.buf crlfcrlf).isSome then (t.calls, some t.buf)
        else (t.calls ++ (readLoop srv rest t.buf t.totalLen).1,
          (readLoop srv rest t.buf t.totalLen).2) := by
  rw [readLoop, if_pos hlt]
  simp only [ht, ReadState.store, ReadState.recv]
  split
  · rfl
  · simp

/-- The turn that leaves the loop is its last. -/
theorem readLoop_of_error (srv : Server) {s t : ReadState} {r : RecvResult} {how : Leave}
    (h : readTurn s r = .error (how, t)) (rest : List RecvResult) :
    how.result srv t = (s.calls ++ (readLoop srv (r :: rest) s.buf s.totalLen).1,
      (readLoop srv (r :: rest) s.buf s.totalLen).2) := by
  rcases readTurn_cases s r with ⟨hge, heq⟩ | ⟨hlt, rfl, heq⟩ | ⟨hlt, ⟨errno, rfl⟩, heq⟩ |
    ⟨hlt, c, t', rfl, ht, heq⟩
  all_goals rw [h] at heq
  · cases heq
    simp [readLoop, hge, Leave.result]
  · cases heq
    simp [readLoop, hlt, Leave.result, ReadState.recv]
  · cases heq
    simp [readLoop, hlt, Leave.result, ReadState.recv]
  · rw [readLoop_data srv hlt c rest ht]
    split at heq
    · rename_i hfound
      cases heq
      rw [if_pos hfound]
      rfl
    · cases heq

/-- A turn that goes on leaves the rest of the loop to the next. -/
theorem readLoop_of_ok (srv : Server) {s t : ReadState} {r : RecvResult}
    (h : readTurn s r = .ok t) (rest : List RecvResult) :
    (s.calls ++ (readLoop srv (r :: rest) s.buf s.totalLen).1,
      (readLoop srv (r :: rest) s.buf s.totalLen).2) =
        (t.calls ++ (readLoop srv rest t.buf t.totalLen).1,
          (readLoop srv rest t.buf t.totalLen).2) := by
  rcases readTurn_cases s r with ⟨hge, heq⟩ | ⟨hlt, rfl, heq⟩ | ⟨hlt, ⟨errno, rfl⟩, heq⟩ |
    ⟨hlt, c, t', rfl, ht, heq⟩
  all_goals rw [h] at heq
  · cases heq
  · cases heq
  · cases heq
  · rw [readLoop_data srv hlt c rest ht]
    split at heq
    · cases heq
    · rename_i hno
      cases heq
      rw [if_neg hno]

/-- **Read loop as a run.**  The loop takes turns until one leaves it; behind the listed results
    the peer has closed. -/
theorem readLoop_run (srv : Server) (results : List RecvResult) (s : ReadState) :
    ∃ how t, run readTurn s (results ++ [.closed]) = .error (how, t) ∧
      how.result srv t = (s.calls ++ (readLoop srv results s.buf s.totalLen).1,
        (readLoop srv results s.buf s.totalLen).2) := by
  induction results generalizing s with
  | nil =>
    have hclosed : readLoop srv [] s.buf s.totalLen = readLoop srv [.closed] s.buf s.totalLen := by
      simp [readLoop]
    rw [hclosed]
    cases hturn : readTurn s .closed with
    | error p => exact ⟨p.1, p.2, run_cons_of_error hturn [], readLoop_of_error srv hturn []⟩
    | ok t =>
      -- a close always leaves the loop
      simp only [readTurn] at hturn
      split at hturn <;> cases hturn
  | cons r rest ih =>
    cases hturn : readTurn s r with
    | error p => exact ⟨p.1, p.2, run_cons_of_error hturn _, readLoop_of_error srv hturn rest⟩
    | ok t =>
      rw [List.cons_append, run_cons_of_ok hturn, readLoop_of_ok srv hturn rest]
      exact ih t

/-! ### What the turns keep -/

/-- The bytes that the `recv` calls returned, one after the other. -/
def receivedBytes (calls : List Call) : Bytes := ((received calls).map (·.getD [])).flatten

/-- The buffer is exact: `total_len` bytes received, a zero behind them inside `buf`, and no `recv`
    has been made that asks for nothing. -/
structure Exact (s : ReadState) : Prop where
  size : s.buf.length = bufSize
  totalLen_le : s.totalLen ≤ bufSize - 1
  terminated : s.buf[s.totalLen]? = some 0
  holds : s.buf.take s.totalLen = receivedBytes s.calls
  asks : ∀ asked got, .recv asked got ∈ s.calls → 1 ≤ asked

/-- Every `recv` so far has returned bytes. -/
structure Filled (s : ReadState) : Prop extends Exact s where
  turns : (received s.calls).length ≤ s.totalLen
  nonempty : ∀ got ∈ received s.calls, got.getD [] ≠ []

/-- A state between two turns. -/
structure Reading (s : ReadState) : Prop extends Filled s where
  unfinished : ¬ crlfcrlf <:+: cstr (receivedBytes s.calls)

/-- A state that the loop is left in. -/
structure Left (how : Leave) (s : ReadState) : Prop extends Exact s where
  turns : (received s.calls).length ≤ bufSize - 1
  found : how = .found ↔ crlfcrlf <:+: cstr (receivedBytes s.calls)
  full : how = .full ↔
    (receivedBytes s.calls).length = bufSize - 1 ∧ ¬ crlfcrlf <:+: cstr (receivedBytes s.calls)
  closed : how = .closed ↔ some [] ∈ received s.calls
  failed : how = .failed ↔ none ∈ received s.calls

/-- The layout of an exact buffer. -/
theorem Exact.layout {s : ReadState} (h : Exact s) :
    (receivedBytes s.calls).length = s.totalLen ∧
      ∃ slack, s.buf = receivedBytes s.calls ++ 0 :: slack := by
  have hbuf : 0 < bufSize := by decide
  refine ⟨?_, s.buf.drop (s.totalLen + 1), ?_⟩
  · rw [← h.holds, List.length_take, h.size]
    have := h.totalLen_le
    omega
  · obtain ⟨hlt, hget⟩ := List.getElem?_eq_some_iff.mp h.terminated
    rw [← h.holds, ← hget, ← List.drop_eq_getElem_cons hlt, List.take_append_drop]

/-- The layout of the buffer gives the invariant. -/
theorem exact_of_layout {s : ReadState} {slack : Bytes} (hsize : s.buf.length = bufSize)
    (hlen : s.totalLen = (receivedBytes s.calls).length)
    (hbuf : s.buf = receivedBytes s.calls ++ 0 :: slack)
    (hasks : ∀ asked got, .recv asked got ∈ s.calls → 1 ≤ asked) : Exact s where
  size := hsize
  totalLen_le := by
    have := congrArg List.length hbuf
    simp only [List.length_append, List.length_cons] at this
    omega
  terminated := by rw [hbuf, hlen]; simp
  holds := by rw [hbuf, hlen, List.take_left]
  asks := hasks

/-- What `strstr` and `sscanf` see of an exact buffer. -/
theorem Exact.cstr_buf {s : ReadState} (h : Exact s) :
    cstr s.buf = cstr (receivedBytes s.calls) := by
  obtain ⟨-, slack, hbuf⟩ := h.layout
  rw [hbuf, cstr_terminated]

/-- `strstr` searches what has been received. -/
theorem Exact.strstr_buf {s : ReadState} (h : Exact s) :
    (strstr s.buf crlfcrlf).isSome ↔ crlfcrlf <:+: cstr (receivedBytes s.calls) := by
  rw [← not_iff_not, Option.not_isSome_iff_eq_none, strstr_eq_none_iff, h.cstr_buf]

/-- One result more. -/
@[simp] theorem received_recv (s : ReadState) (got : Option Bytes) :
    received (s.recv got).calls = received s.calls ++ [got] := by
  simp [ReadState.recv, received]

@[simp] theorem receivedBytes_recv (s : ReadState) (got : Option Bytes) :
    receivedBytes (s.recv got).calls = receivedBytes s.calls ++ got.getD [] := by
  simp [receivedBytes]

/-- To store is to have received. -/
@[simp] theorem calls_store (s : ReadState) (got : Bytes) :
    (s.store got).calls = (s.recv (some got)).calls := rfl

/-- While there is room, at least one byte is asked for. -/
theorem asks_recv {s : ReadState} (h : Exact s) (hlt : s.totalLen < bufSize - 1)
    (got : Option Bytes) :
    ∀ asked g, .recv asked g ∈ (s.recv got).calls → 1 ≤ asked := by
  intro asked g hmem
  rcases List.mem_append.mp hmem with hmem | hmem
  · exact h.asks asked g hmem
  · obtain ⟨rfl, -⟩ : asked = bufSize - 1 - s.totalLen ∧ g = got := by simpa using hmem
    omega

/-- A `recv` that returns no bytes leaves the buffer as it is. -/
theorem Exact.recv {s : ReadState} (h : Exact s) (hlt : s.totalLen < bufSize - 1)
    {got : Option Bytes} (hgot : got.getD [] = []) : Exact (s.recv got) where
  size := h.size
  totalLen_le := h.totalLen_le
  terminated := h.terminated
  holds := by
    rw [receivedBytes_recv, hgot, List.append_nil]
    exact h.holds
  asks := asks_recv h hlt got

/-- Bytes that fit are stored behind those received before. -/
theorem Exact.store {s : ReadState} (h : Exact s) {got : Bytes} (hlt : s.totalLen < bufSize - 1)
    (hgot : got.length ≤ bufSize - 1 - s.totalLen) : Exact (s.store got) := by
  obtain ⟨hlen, slack, hbuf⟩ := h.layout
  have hsize := h.size
  rw [hbuf, List.length_append] at hsize
  have hroom : (receivedBytes s.calls).length + got.length ≤ bufSize - 1 := by omega
  obtain ⟨slack', hpoke, hsize'⟩ := stored_chunk hsize hroom
  -- `total_len` is where the bytes received so far end
  rw [← hbuf, hlen] at hpoke
  have hstored : (s.store got).buf = receivedBytes (s.store got).calls ++ 0 :: slack' := by
    rw [calls_store, receivedBytes_recv]
    exact hpoke
  refine exact_of_layout ?_ ?_ hstored (asks_recv h hlt (some got))
  · show (poke _ _ _).length = bufSize
    rw [hpoke, List.length_append, hsize']
  · rw [calls_store, receivedBytes_recv, List.length_append, hlen]
    rfl

/-- A turn that receives a chunk makes progress. -/
theorem Filled.store {s : ReadState} (h : Filled s) (hlt : s.totalLen < bufSize - 1) (c : Chunk) :
    Filled (s.store (c.bytes.take (bufSize - 1 - s.totalLen))) := by
  have hpos : 0 < c.bytes.length := List.length_pos_iff.mpr c.nonempty
  have hlen : 0 < (c.bytes.take (bufSize - 1 - s.totalLen)).length := by
    rw [List.length_take]
    omega
  refine ⟨h.toExact.store hlt (List.length_take_le _ _), ?_, ?_⟩
  · rw [calls_store, received_recv, List.length_append]
    exact Nat.add_le_add h.turns hlen
  · intro got hgot
    rw [calls_store, received_recv, List.mem_append, List.mem_singleton] at hgot
    rcases hgot with hgot | rfl
    · exact h.nonempty got hgot
    · exact List.length_pos_iff.mp hlen

/-- Without bytes from the last `recv`, the loop gives up with what it has received before. -/
theorem Reading.recv {s : ReadState} (h : Reading s) (hlt : s.totalLen < bufSize - 1) {how : Leave}
    {got : Option Bytes}
    (hhow : (how = .closed ∧ got = some []) ∨ (how = .failed ∧ got = none)) :
    Left how (s.recv got) := by
  have hlen := h.toExact.layout.1
  have hturns := h.turns
  have hnone : none ∉ received s.calls := fun hm => h.nonempty none hm rfl
  have hempty : some [] ∉ received s.calls := fun hm => h.nonempty (some []) hm rfl
  have hun := h.unfinished
  have hgot : got.getD [] = [] := by rcases hhow with ⟨-, rfl⟩ | ⟨-, rfl⟩ <;> rfl
  have hbytes : receivedBytes (s.recv got).calls = receivedBytes s.calls := by
    rw [receivedBytes_recv, hgot, List.append_nil]
  refine ⟨h.toExact.recv hlt hgot, ?_, ?_, ?_, ?_, ?_⟩
  · rw [received_recv, List.length_append, List.length_singleton]
    omega
  · rcases hhow with ⟨rfl, -⟩ | ⟨rfl, -⟩ <;> simp [hbytes, hun]
  · -- there was room left for this `recv`
    have hne : (receivedBytes s.calls).length ≠ bufSize - 1 := by omega
    rcases hhow with ⟨rfl, -⟩ | ⟨rfl, -⟩ <;> simp [hbytes, hne]
  · rcases hhow with ⟨rfl, rfl⟩ | ⟨rfl, rfl⟩ <;> simp [hempty]
  · rcases hhow with ⟨rfl, rfl⟩ | ⟨rfl, rfl⟩ <;> simp [hnone]

/-- With bytes from every `recv`, the loop is left with the end of the headers or a full buffer. -/
theorem Filled.left {s : ReadState} (h : Filled s) {how : Leave}
    (hfound : how = .found ↔ crlfcrlf <:+: cstr (receivedBytes s.calls))
    (hfull : how = .full ↔ s.totalLen = bufSize - 1 ∧ ¬ crlfcrlf <:+: cstr (receivedBytes s.calls))
    (hhow : how = .found ∨ how = .full) : Left how s := by
  have hnone : none ∉ received s.calls := fun hm => h.nonempty none hm rfl
  have hempty : some [] ∉ received s.calls := fun hm => h.nonempty (some []) hm rfl
  refine ⟨h.toExact, h.turns.trans h.totalLen_le, hfound, by rwa [h.toExact.layout.1], ?_, ?_⟩
  · rcases hhow with rfl | rfl <;> simp [hempty]
  · rcases hhow with rfl | rfl <;> simp [hnone]

/-- Before the first `recv`. -/
theorem reading_start : Reading .start where
  size := List.length_replicate
  totalLen_le := by decide
  terminated := by decide +kernel
  holds := by decide
  asks := by simp [ReadState.start]
  turns := by decide
  nonempty := by decide
  unfinished := by decide

/-! ### The bytes delivered -/

/-- The loop does not ask for more behind this text. -/
def Stops (text : Bytes) : Prop := crlfcrlf <:+: cstr text ∨ bufSize - 1 ≤ text.length

instance (text : Bytes) : Decidable (Stops text) := inferInstanceAs (Decidable (_ ∨ _))

/-- The bytes received by the end of the loop, if it has received `text` so far. -/
def delivered (text : Bytes) : List RecvResult → Bytes
  | .data c :: rest =>
      if Stops text then text
      else delivered (text ++ c.bytes.take (bufSize - 1 - text.length)) rest
  | _ => text

/-- Behind the end, nothing is taken any more. -/
theorem delivered_of_stops {text : Bytes} (h : Stops text) (results : List RecvResult) :
    delivered text results = text := by
  unfold delivered
  split
  · rw [if_pos h]
  · rfl

/-- Before it, as much as there is room for. -/
theorem delivered_data {text : Bytes} (h : ¬ Stops text) (c : Chunk) (rest : List RecvResult) :
    delivered text (.data c :: rest) =
      delivered (text ++ c.bytes.take (bufSize - 1 - text.length)) rest := by
  rw [delivered, if_neg h]

/-- A close brings no bytes. -/
theorem delivered_concat_closed (text : Bytes) (results : List RecvResult) :
    delivered text (results ++ [.closed]) = delivered text results := by
  fun_induction delivered text results with
  | case1 text c rest h => exact delivered_of_stops h _
  | case2 text c rest h ih => rw [List.cons_append, delivered_data h, ih]
  | case3 results text hdata =>
    cases results with
    | nil => rfl
    | cons r rest =>
      cases r with
      | data c => exact absurd rfl (hdata c rest)
      | closed => rfl
      | failed errno => rfl

/-- The loop stops at the end of the request or at the end of the buffer. -/
theorem Exact.stops_iff {s : ReadState} (h : Exact s) :
    Stops (receivedBytes s.calls) ↔
      crlfcrlf <:+: cstr (receivedBytes s.calls) ∨ s.totalLen = bufSize - 1 := by
  have hlen := h.layout.1
  have hle := h.totalLen_le
  have hfull : bufSize - 1 ≤ (receivedBytes s.calls).length ↔ s.totalLen = bufSize - 1 := by omega
  rw [Stops, hfull]

/-! ### The turns and the whole run -/

/-- A turn that goes on has stored a chunk without completing the headers. -/
theorem Reading.ok {s t : ReadState} {result : RecvResult} (h : Reading s)
    (hturn : readTurn s result = .ok t) :
    Reading t ∧ ∀ rest, delivered (receivedBytes s.calls) (result :: rest) =
      delivered (receivedBytes t.calls) rest := by
  rcases readTurn_cases s result with ⟨-, heq⟩ | ⟨-, -, heq⟩ | ⟨-, -, heq⟩ |
    ⟨hlt, c, t', rfl, rfl, heq⟩
  all_goals rw [hturn] at heq
  · cases heq
  · cases heq
  · cases heq
  · have hfilled := h.toFilled.store hlt c
    -- there was room left and no end of the headers, so the loop asked for more
    have hgoes : ¬ Stops (receivedBytes s.calls) := by
      rw [h.toExact.stops_iff, not_or]
      exact ⟨h.unfinished, by omega⟩
    split at heq
    · cases heq
    · rename_i hno
      obtain rfl := Except.ok.inj heq
      rw [hfilled.toExact.strstr_buf] at hno
      refine ⟨⟨hfilled, hno⟩, fun rest => ?_⟩
      rw [delivered_data hgoes, h.toExact.layout.1, calls_store, receivedBytes_recv]
      rfl

/-- A turn that leaves the loop. -/
theorem Reading.error {s t : ReadState} {result : RecvResult} {how : Leave} (h : Reading s)
    (hturn : readTurn s result = .error (how, t)) :
    Left how t ∧
      ∀ rest, delivered (receivedBytes s.calls) (result :: rest) = receivedBytes t.calls := by
  rcases readTurn_cases s result with ⟨hge, heq⟩ | ⟨hlt, rfl, heq⟩ | ⟨hlt, ⟨errno, rfl⟩, heq⟩ |
    ⟨hlt, c, t', rfl, rfl, heq⟩
  all_goals rw [hturn] at heq
  · cases heq
    have hle := h.totalLen_le
    -- the condition fails with a full buffer, in which no earlier turn has found the pattern
    have hfull : s.totalLen = bufSize - 1 := by omega
    refine ⟨h.toFilled.left (by simp [h.unfinished]) (by simp [h.unfinished, hfull]) (Or.inr rfl),
      fun rest => delivered_of_stops ?_ _⟩
    exact h.toExact.stops_iff.mpr (Or.inr hfull)
  · cases heq
    exact ⟨h.recv hlt (Or.inl ⟨rfl, rfl⟩), fun rest => by simp [delivered]⟩
  · cases heq
    exact ⟨h.recv hlt (Or.inr ⟨rfl, rfl⟩), fun rest => by simp [delivered]⟩
  · have hfilled := h.toFilled.store hlt c
    have hgoes : ¬ Stops (receivedBytes s.calls) := by
      rw [h.toExact.stops_iff, not_or]
      exact ⟨h.unfinished, by omega⟩
    split at heq
    · rename_i hfound
      cases heq
      rw [hfilled.toExact.strstr_buf] at hfound
      refine ⟨hfilled.left ⟨fun _ => hfound, fun _ => rfl⟩
        ⟨fun hhow => Leave.noConfusion hhow, fun hno => absurd hfound hno.2⟩ (Or.inl rfl),
        fun rest => ?_⟩
      rw [delivered_data hgoes, h.toExact.layout.1]
      have hbytes := receivedBytes_recv s (some (c.bytes.take (bufSize - 1 - s.totalLen)))
      rw [Option.getD_some, ← calls_store] at hbytes
      rw [← hbytes]
      exact delivered_of_stops (Or.inl hfound) rest
    · cases heq

/-- A loop that was left has stopped by itself if it was left at the end of the request or of the
    buffer. -/
theorem Left.stops_iff {how : Leave} {s : ReadState} (h : Left how s) :
    Stops (receivedBytes s.calls) ↔ how = .found ∨ how = .full := by
  rw [h.toExact.stops_iff, h.found, h.full, h.toExact.layout.1]
  by_cases hin : crlfcrlf <:+: cstr (receivedBytes s.calls) <;> simp [hin]

/-- **Runs** of the loop keep its invariant. -/
theorem reading_of_run {pre : List RecvResult} {s : ReadState}
    (hs : run readTurn .start pre = .ok s) : Reading s :=
  run_invariant (fun _ _ _ hm hturn => (hm.ok hturn).1) reading_start hs

/-- The loop is left in some way. -/
theorem readLoop_left (srv : Server) (results : List RecvResult) :
    ∃ how s, run readTurn .start (results ++ [.closed]) = .error (how, s) ∧ Left how s ∧
      readLoop srv results clearBuf 0 = how.result srv s := by
  obtain ⟨how, s, hrun, hres⟩ := readLoop_run srv results .start
  obtain ⟨pre, x, post, m, -, hm, hturn⟩ := run_eq_error_iff.mp hrun
  exact ⟨how, s, hrun, ((reading_of_run hm).error hturn).1, hres.symm⟩

/-- **The read loop keeps its buffer exact.**  Between its turns and where it is left, the buffer
    holds the bytes received with a zero behind them, every `recv` asks for at least one byte, and
    only a close makes it return 0.  The loop is always left, after at most `BUFSIZE - 1` receives:
    by its `break` with the first bytes that complete `\r\n\r\n` before any zero byte, by its
    condition with `BUFSIZE - 1` bytes that do not. -/
theorem readLoop_exact (srv : Server) (results : List RecvResult) :
    (∀ pre s, pre <+: results → run readTurn .start pre = .ok s → Reading s) ∧
      ∃ how s, run readTurn .start (results ++ [.closed]) = .error (how, s) ∧ Left how s ∧
        readLoop srv results clearBuf 0 = how.result srv s :=
  ⟨fun _ _ _ hs => reading_of_run hs, readLoop_left srv results⟩

/-- A run that leaves the loop has received the bytes delivered. -/
theorem receivedBytes_run {inputs : List RecvResult} {s t : ReadState} {how : Leave}
    (hs : Reading s) (hrun : run readTurn s inputs = .error (how, t)) :
    receivedBytes t.calls = delivered (receivedBytes s.calls) inputs := by
  induction inputs generalizing s with
  | nil => cases hrun
  | cons r rest ih =>
    cases hturn : readTurn s r with
    | ok m =>
      rw [run_cons_of_ok hturn] at hrun
      rw [(hs.ok hturn).2 rest]
      exact ih (hs.ok hturn).1 hrun
    | error p =>
      rw [run_cons_of_error hturn] at hrun
      obtain rfl : p = (how, t) := Except.error.inj hrun
      exact ((hs.error hturn).2 rest).symm

/-- **The bytes delivered.**  The loop receives them and no others, it fails exactly if they are
    not enough to stop, and otherwise the string in its buffer is theirs. -/
theorem readLoop_delivered (srv : Server) (results : List RecvResult) :
    receivedBytes (readLoop srv results clearBuf 0).1 = delivered [] results ∧
      ((readLoop srv results clearBuf 0).2 = none ↔ ¬ Stops (delivered [] results)) ∧
      ∀ buf, (readLoop srv results clearBuf 0).2 = some buf →
        cstr buf = cstr (delivered [] results) := by
  obtain ⟨how, s, hrun, hleft, hres⟩ := readLoop_left srv results
  have hbytes := receivedBytes_run reading_start hrun
  rw [delivered_concat_closed] at hbytes
  replace hbytes : receivedBytes s.calls = delivered [] results := hbytes
  rw [hres, ← hbytes, hleft.stops_iff, ← hleft.toExact.cstr_buf]
  cases how <;> simp [Leave.result, receivedBytes, received]

end SimpleHttp
