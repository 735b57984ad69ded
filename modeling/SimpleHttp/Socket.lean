import Mathlib.Data.PNat.Notation
import Mathlib.Data.PNat.Defs
import SimpleHttp.Lib.CString

namespace SimpleHttp

open Lib

/-!
# Sockets — system calls and what they report

The client and the servers talk to the kernel through `recv`, `send` and the stdio file calls.
What the kernel answers is given as a list of results per call site, consumed in order:

* `RecvResult` — a non-empty chunk of at most `bufSize - 1` bytes, an orderly close, or a
  failure.  A `recv` that asks for less than the chunk holds gets the bytes it asked for.
  Behind the listed results the peer has closed.
* `SendResult` — the number of bytes accepted, at least one and never more than offered, or a
  failure.  Behind the listed results every send is accepted whole.

The functions of the model return the calls they make, in order, as a list of `Call`s.
-/

/-- `BUFSIZE` of all three programs. -/
def bufSize : Nat := 1024

/-- A file or socket descriptor. -/
abbrev Fd := Nat

/-- The bytes one successful `recv` returns. -/
structure Chunk where
  bytes : Bytes
  nonempty : bytes ≠ []
  length_le : bytes.length ≤ bufSize - 1
  deriving DecidableEq

/-- What a `recv` returns: bytes, 0 for a close, or -1. -/
inductive RecvResult where
  | data (c : Chunk)
  | closed
  | failed (errno : Bytes)   -- the text that `perror` adds
  deriving DecidableEq

/-- What a `send` returns, when it returns: a count, or -1. -/
inductive SendResult where
  | accepted (n : ℕ+)
  | failed (errno : Bytes)
  deriving DecidableEq

/-- A system or library call with its arguments and its result. -/
inductive Call where
  | recv (asked : Nat) (got : Option Bytes)   -- `none` for -1, `some []` for 0
  | send (offered : Bytes) (accepted : Option Nat)   -- `none` for -1
  | fopen (name : Bytes) (fd : Option Fd)   -- `none` for NULL
  | fread (block : Bytes)
  | fclose (fd : Fd)
  | perror (msg : Bytes)
  | eprint (msg : Bytes)   -- `fprintf(stderr, ...)`
  deriving DecidableEq, Repr

/-- The bytes that the calls put on the connection. -/
def sentBytes : List Call → Bytes
  | [] => []
  | .send offered (some n) :: calls => offered.take n ++ sentBytes calls
  | _ :: calls => sentBytes calls

/-- The results of the `recv` calls, in order. -/
def received (calls : List Call) : List (Option Bytes) :=
  calls.filterMap fun
    | .recv _ got => some got
    | _ => none

/-- The names passed to `fopen`, in order. -/
def fopened (calls : List Call) : List Bytes :=
  calls.filterMap fun
    | .fopen name _ => some name
    | _ => none

@[simp] theorem sentBytes_nil : sentBytes [] = [] := rfl

@[simp] theorem sentBytes_append (a b : List Call) :
    sentBytes (a ++ b) = sentBytes a ++ sentBytes b := by
  fun_induction sentBytes a with
  | case1 => rfl
  | case2 offered n calls ih => simp [sentBytes, ih]
  | case3 call calls hne ih =>
    cases call with
    | send offered accepted =>
      cases accepted with
      | none => simpa [sentBytes] using ih
      | some n => exact absurd rfl (hne offered n)
    | _ => simpa [sentBytes] using ih

@[simp] theorem received_append (a b : List Call) :
    received (a ++ b) = received a ++ received b := List.filterMap_append

@[simp] theorem fopened_append (a b : List Call) :
    fopened (a ++ b) = fopened a ++ fopened b := List.filterMap_append

/-! ### The send loop

`while (sent < len) { res = send(s, buf + sent, len - sent, 0); ... sent += res; }`, as the
client sends its request and the servers send each block of a file. -/

/-- How a send loop ends: its calls, the errno text of the send it failed with, and the
    results not used. -/
structure SendLoop where
  calls : List Call
  failed : Option Bytes
  rest : List SendResult

/-- The send loop over `data`, of which `sent` bytes have been accepted. -/
def sendLoop (data : Bytes) (sent : Nat) (results : List SendResult) : SendLoop :=
  if sent < data.length then
    match results with
    | [] => ⟨[.send (data.drop sent) (some (data.length - sent))], none, []⟩
    | .failed errno :: rest => ⟨[.send (data.drop sent) none], some errno, rest⟩
    | .accepted n :: rest =>
        -- a short count: the loop offers the rest again
        let res := min (n : Nat) (data.length - sent)
        let next := sendLoop data (sent + res) rest
        { next with calls := .send (data.drop sent) (some res) :: next.calls }
  else ⟨[], none, results⟩

/-- The loop makes no other calls than sends. -/
theorem sendLoop_calls (data : Bytes) (sent : Nat) (results : List SendResult) :
    ∀ c ∈ (sendLoop data sent results).calls, ∃ offered accepted, c = .send offered accepted := by
  fun_induction sendLoop data sent results with
  | case3 sent hlt n rest res next ih =>
    intro c hc
    rcases List.mem_cons.mp hc with rfl | hc
    · exact ⟨_, _, rfl⟩
    · exact ih c hc
  | _ => simp

/-- Every listed send is accepted. -/
def AllAccepted (results : List SendResult) : Prop :=
  ∀ r ∈ results, ∃ n, r = .accepted n

theorem AllAccepted.tail {r : SendResult} {results : List SendResult}
    (h : AllAccepted (r :: results)) : AllAccepted results :=
  fun s hs => h s (List.mem_cons_of_mem _ hs)

/-- What the loop has put on the connection is a prefix of what it was to send. -/
theorem prefix_sentBytes_sendLoop (data : Bytes) (sent : Nat) (results : List SendResult) :
    sentBytes (sendLoop data sent results).calls <+: data.drop sent := by
  fun_induction sendLoop data sent results with
  | case1 sent hlt => simp [sentBytes, List.take_prefix]
  | case2 sent hlt errno rest => simp [sentBytes]
  | case3 sent hlt n rest res next ih =>
    obtain ⟨tail, htail⟩ := ih
    refine ⟨tail, ?_⟩
    simp only [sentBytes]
    rw [List.append_assoc, htail, ← List.drop_drop, List.take_append_drop]
  | case4 sent results hge => simp

/-- Left without a failure, the loop has put everything on the connection. -/
theorem sentBytes_sendLoop_of_none {data : Bytes} {sent : Nat} {results : List SendResult}
    (h : (sendLoop data sent results).failed = none) :
    sentBytes (sendLoop data sent results).calls = data.drop sent := by
  fun_induction sendLoop data sent results with
  | case1 sent hlt => simp [sentBytes, List.take_of_length_le]
  | case2 sent hlt errno rest => cases h
  | case3 sent hlt n rest res next ih =>
    simp only [sentBytes]
    rw [ih h, ← List.drop_drop, List.take_append_drop]
  | case4 sent results hge => simp [List.drop_eq_nil_of_le (Nat.le_of_not_lt hge)]

/-- Left by a failure, it has not. -/
theorem sentBytes_sendLoop_of_failed {data : Bytes} {sent : Nat} {results : List SendResult}
    {errno : Bytes} (h : (sendLoop data sent results).failed = some errno) :
    (sentBytes (sendLoop data sent results).calls).length < data.length - sent := by
  fun_induction sendLoop data sent results with
  | case1 sent hlt => cases h
  | case2 sent hlt e rest =>
    simp only [sentBytes, List.length_nil]
    omega
  | case3 sent hlt n rest res next ih =>
    have hnext : (sentBytes next.calls).length < data.length - (sent + res) := ih h
    simp only [sentBytes, List.length_append, List.length_take, List.length_drop]
    omega
  | case4 sent results hge => cases h

/-- The loop fails exactly if one of its sends does. -/
theorem failed_sendLoop_iff (data : Bytes) (sent : Nat) (results : List SendResult) :
    (sendLoop data sent results).failed = none ↔
      ∀ offered, .send offered none ∉ (sendLoop data sent results).calls := by
  fun_induction sendLoop data sent results with
  | case1 sent hlt => simp
  | case2 sent hlt errno rest => simp
  | case3 sent hlt n rest res next ih => simpa using ih
  | case4 sent results hge => simp

/-- Where every send is accepted, the loop does not fail. -/
theorem failed_sendLoop_of_allAccepted {data : Bytes} {sent : Nat} {results : List SendResult}
    (h : AllAccepted results) : (sendLoop data sent results).failed = none := by
  fun_induction sendLoop data sent results with
  | case1 sent hlt => rfl
  | case2 sent hlt errno rest => obtain ⟨n, hn⟩ := h _ List.mem_cons_self; cases hn
  | case3 sent hlt n rest res next ih => exact ih h.tail
  | case4 sent results hge => rfl

/-- Where every send is accepted, so is every one that the loop has left. -/
theorem allAccepted_sendLoop_rest {data : Bytes} {sent : Nat} {results : List SendResult}
    (h : AllAccepted results) : AllAccepted (sendLoop data sent results).rest := by
  fun_induction sendLoop data sent results with
  | case1 sent hlt => exact h
  | case2 sent hlt errno rest => exact h.tail
  | case3 sent hlt n rest res next ih => exact ih h.tail
  | case4 sent results hge => exact h

end SimpleHttp
