import SimpleHttp.Server1

namespace SimpleHttp

open Lib

/-!
# The select loop of `http_server2.c`

* `State` — the variables of `main`, the kernel's view of its sockets, and a log.
* `fdSet`, `fdIsSet`, `fdClr` — the `fd_set` macros, undefined from `FD_SETSIZE` on.
* `round` — one turn of the loop: `select`, `accept` with the search for a free slot, and the
  scan of the connections.
* `serverLoop` — the loop over the results of its `select` and `accept` calls.

`addConnection_cases`, `scanSlot_cases` and `round_cases` say what each part can do.
-/

/-- What the run of a server depends on and does not change. -/
structure World where
  fs : FileSystem
  conn : ConnId → ConnEnv   -- the calls on a connection
  sock : Fd   -- the listening socket
  sock_lt : sock < fdSetSize

/-- The results of the calls in one round. -/
structure RoundEnv where
  select : Option (Finset Fd)   -- the ready descriptors; `none` for -1
  accept : Option Fd   -- `none` for -1

/-- The state at the top of a round.  A slot of `connections` that holds -1 is `none`. -/
structure State where
  connections : Fin fdSetSize → Option Fd
  allFds : FdSet fdSetSize
  maxFd : Fd
  peer : Fd → Option ConnId   -- the connection behind an open descriptor
  accepted : Nat
  log : List Event

/-- The state before the loop. -/
def initial (w : World) : State where
  connections _ := none
  allFds := FdSet.empty.insert w.sock w.sock_lt
  maxFd := w.sock
  peer _ := none
  accepted := 0
  log := []

/-! ### The `fd_set` macros -/

/-- `FD_SET`; outside of `fd_set` it is undefined. -/
def fdSet (fd : Fd) (s : FdSet fdSetSize) : Except Undefined (FdSet fdSetSize) :=
  if h : fd < fdSetSize then .ok (s.insert fd h) else .error (.fdOutOfRange fd)

/-- `FD_ISSET`, likewise. -/
def fdIsSet (fd : Fd) (s : FdSet fdSetSize) : Except Undefined Bool :=
  if fd < fdSetSize then .ok (decide (fd ∈ s.members)) else .error (.fdOutOfRange fd)

/-- `FD_CLR`, likewise. -/
def fdClr (fd : Fd) (s : FdSet fdSetSize) : Except Undefined (FdSet fdSetSize) :=
  if fd < fdSetSize then .ok (s.erase fd) else .error (.fdOutOfRange fd)

/-! ### One round -/

/-- More of the log. -/
def State.record (s : State) (events : List Event) : State := { s with log := s.log ++ events }

/-- What `accept` does to the kernel's side of the state. -/
def State.accept (s : State) (fd : Fd) : State :=
  { s with
    peer := Function.update s.peer fd (some s.accepted)
    accepted := s.accepted + 1
    log := s.log ++ [.accepted fd s.accepted] }

/-- `read_fds` after `select(max_fd + 1, &read_fds, NULL, NULL, NULL)`. -/
def State.selectReady (s : State) (ready : Finset Fd) : FdSet fdSetSize :=
  s.allFds.filter fun fd => fd ∈ ready ∧ fd < s.maxFd + 1

/-- The slot `i` taken by a new connection. -/
def State.track (s : State) (i : Fin fdSetSize) (newConn : Fd) (allFds : FdSet fdSetSize) : State :=
  { s with
    connections := Function.update s.connections i (some newConn)
    allFds
    maxFd := if newConn > s.maxFd then newConn else s.maxFd }

/-- A new connection closed because there is no slot for it. -/
def State.reject (s : State) (newConn : Fd) : State :=
  { s with
    peer := Function.update s.peer newConn none
    log := s.log ++
      [.print (ascii "Too many connections, rejecting new connection\n"), .closed newConn] }

/-- The connection in slot `i` handled, closed and forgotten. -/
def State.finish (s : State) (i : Fin fdSetSize) (conn : Fd) (out : Outcome)
    (allFds : FdSet fdSetSize) : State :=
  { s with
    connections := Function.update s.connections i none
    allFds
    peer := Function.update s.peer conn none
    log := s.log ++ serve .httpServer2 conn (s.peer conn) out }

/-- PART 1 behind a successful `accept`: the first empty slot, or `close`. -/
def addConnection (s : State) (newConn : Fd) : Except Undefined State :=
  match firstEmpty s.connections with
  | some i =>
      match fdSet newConn s.allFds with
      | .error u => .error u
      | .ok allFds => .ok (s.track i newConn allFds)
  | none => .ok (s.reject newConn)

/-- What the calls on a descriptor that is not open return. -/
def badDescriptor : ConnEnv := ⟨[.failed (ascii "Bad file descriptor")], 0, [], []⟩

/-- The calls on a descriptor. -/
def connEnv (w : World) (s : State) (fd : Fd) : ConnEnv :=
  match s.peer fd with
  | some id => w.conn id
  | none => badDescriptor

/-- PART 2 for one slot. -/
def scanSlot (w : World) (readFds : FdSet fdSetSize) (s : State) (i : Fin fdSetSize) :
    Except Undefined State :=
  match s.connections i with
  | none => .ok s
  | some conn =>
      match fdIsSet conn readFds with
      | .error u => .error u
      | .ok false => .ok s
      | .ok true =>
          match Server2.handleConnection w.fs (connEnv w s conn) with
          | .error u => .error u
          | .ok out =>
              -- closed and forgotten, whatever `handle_connection` has returned
              match fdClr conn s.allFds with
              | .error u => .error u
              | .ok allFds => .ok (s.finish i conn out allFds)

/-- PART 2: all slots in order. -/
def scan (w : World) (readFds : FdSet fdSetSize) (s : State) : Except Undefined State :=
  run (scanSlot w readFds) s (List.finRange fdSetSize)

/-- One turn of `while (1)`. -/
def round (w : World) (s : State) (env : RoundEnv) : Except Undefined State :=
  match env.select with
  | none => .ok (s.record [.perror (ascii "http_server2: select error")])   -- `continue`
  | some ready =>
      let readFds := s.selectReady ready
      let s := s.record [.selected readFds]
      match fdIsSet w.sock readFds with
      | .error u => .error u
      | .ok false => scan w readFds s
      | .ok true =>
          match env.accept with
          | none =>
              -- `continue`: the connections are not scanned in this round
              .ok (s.record [.perror (ascii "http_server2: accept error")])
          | some newConn =>
              match addConnection (s.accept newConn) newConn with
              | .error u => .error u
              | .ok s => scan w readFds s

/-- The loop of `main` from its initial state. -/
def serverLoop (w : World) (rounds : List RoundEnv) : Except Undefined State :=
  run (round w) (initial w) rounds

/-! ### What the parts of a round can do -/

/-- A descriptor that has been set is in range. -/
theorem fdSet_eq_ok {fd : Fd} {a b : FdSet fdSetSize} (h : fdSet fd a = .ok b) :
    ∃ hlt : fd < fdSetSize, b = a.insert fd hlt := by
  unfold fdSet at h
  split at h
  · rename_i hlt
    exact ⟨hlt, (Except.ok.inj h).symm⟩
  · cases h

/-- A descriptor that has been looked up is in range. -/
theorem fdIsSet_eq_ok {fd : Fd} {a : FdSet fdSetSize} {b : Bool} (h : fdIsSet fd a = .ok b) :
    fd < fdSetSize ∧ b = decide (fd ∈ a.members) := by
  unfold fdIsSet at h
  split at h
  · rename_i hlt
    exact ⟨hlt, (Except.ok.inj h).symm⟩
  · cases h

/-- The listening socket is always in range. -/
theorem fdIsSet_sock (w : World) (a : FdSet fdSetSize) :
    fdIsSet w.sock a = .ok (decide (w.sock ∈ a.members)) := by
  rw [fdIsSet, if_pos w.sock_lt]

/-- A descriptor that has been cleared is gone. -/
theorem fdClr_eq_ok {fd : Fd} {a b : FdSet fdSetSize} (h : fdClr fd a = .ok b) :
    b = a.erase fd := by
  unfold fdClr at h
  split at h
  · exact (Except.ok.inj h).symm
  · cases h

/-- With an empty slot, the connection is kept in it. -/
theorem addConnection_of_slot {s : State} {i : Fin fdSetSize}
    (h : firstEmpty s.connections = some i) {fd : Fd} (hlt : fd < fdSetSize) :
    addConnection s fd = .ok (s.track i fd (s.allFds.insert fd hlt)) := by
  unfold addConnection
  rw [h]
  simp only [fdSet, dif_pos hlt]

/-- With an empty slot and a descriptor out of range, `FD_SET` is undefined. -/
theorem addConnection_of_not_lt {s : State} {i : Fin fdSetSize}
    (h : firstEmpty s.connections = some i) {fd : Fd} (hge : ¬ fd < fdSetSize) :
    addConnection s fd = .error (.fdOutOfRange fd) := by
  unfold addConnection
  rw [h]
  simp only [fdSet, dif_neg hge]

/-- Without an empty slot, the connection is rejected. -/
theorem addConnection_of_full {s : State} (h : firstEmpty s.connections = none) (fd : Fd) :
    addConnection s fd = .ok (s.reject fd) := by
  unfold addConnection
  rw [h]

/-- What a defined `accept` can do. -/
theorem addConnection_cases {s s' : State} {fd : Fd} (h : addConnection s fd = .ok s') :
    (∃ i, ∃ hlt : fd < fdSetSize, s.connections i = none ∧
      s' = s.track i fd (s.allFds.insert fd hlt)) ∨
    (firstEmpty s.connections = none ∧ s' = s.reject fd) := by
  unfold addConnection at h
  split at h
  · rename_i i hi
    split at h
    · cases h
    · rename_i allFds hset
      obtain ⟨hlt, rfl⟩ := fdSet_eq_ok hset
      exact Or.inl ⟨i, hlt, firstEmpty_eq_some hi, (Except.ok.inj h).symm⟩
  · rename_i hfull
    exact Or.inr ⟨hfull, (Except.ok.inj h).symm⟩

/-- **One slot.**  It is left alone, or its connection is ready, handled, closed and forgotten. -/
theorem scanSlot_cases {w : World} {readFds : FdSet fdSetSize} {s s' : State} {i : Fin fdSetSize}
    (h : scanSlot w readFds s i = .ok s') :
    (s' = s ∧ ∀ conn, s.connections i = some conn → conn ∉ readFds.members) ∨
    (∃ conn out, s.connections i = some conn ∧ conn ∈ readFds.members ∧
      Server2.handleConnection w.fs (connEnv w s conn) = .ok out ∧
      s' = s.finish i conn out (s.allFds.erase conn)) := by
  unfold scanSlot at h
  split at h
  · rename_i hnone
    refine Or.inl ⟨(Except.ok.inj h).symm, fun conn hconn => ?_⟩
    rw [hnone] at hconn
    cases hconn
  · rename_i conn hconn
    split at h
    · cases h
    · rename_i hset
      refine Or.inl ⟨(Except.ok.inj h).symm, fun conn' hconn' => ?_⟩
      obtain rfl : conn = conn' := Option.some.inj (hconn.symm.trans hconn')
      exact of_decide_eq_false (fdIsSet_eq_ok hset).2.symm
    · rename_i hset
      split at h
      · cases h
      · rename_i out hrun
        split at h
        · cases h
        · rename_i allFds hclr
          refine Or.inr ⟨conn, out, hconn, of_decide_eq_true (fdIsSet_eq_ok hset).2.symm, hrun, ?_⟩
          rw [← fdClr_eq_ok hclr]
          exact (Except.ok.inj h).symm

/-- **One round.**  `select` fails; or the listening socket is not ready and the slots are scanned;
    or it is ready and `accept` fails, which ends the round; or a connection is added and then
    the slots are scanned. -/
theorem round_cases {w : World} {s s' : State} {env : RoundEnv} (h : round w s env = .ok s') :
    (env.select = none ∧ s' = s.record [.perror (ascii "http_server2: select error")]) ∨
    ∃ ready, env.select = some ready ∧
      ((w.sock ∉ (s.selectReady ready).members ∧
          scan w (s.selectReady ready) (s.record [.selected (s.selectReady ready)]) = .ok s') ∨
        (w.sock ∈ (s.selectReady ready).members ∧ env.accept = none ∧
          s' = s.record [.selected (s.selectReady ready),
            .perror (ascii "http_server2: accept error")]) ∨
        ∃ newConn s₁, w.sock ∈ (s.selectReady ready).members ∧ env.accept = some newConn ∧
          addConnection ((s.record [.selected (s.selectReady ready)]).accept newConn) newConn =
            .ok s₁ ∧ scan w (s.selectReady ready) s₁ = .ok s') := by
  unfold round at h
  split at h
  · rename_i hsel
    exact Or.inl ⟨hsel, (Except.ok.inj h).symm⟩
  · rename_i ready hsel
    refine Or.inr ⟨ready, hsel, ?_⟩
    -- the listening socket is below `FD_SETSIZE`, so the test is defined
    simp only [fdIsSet_sock] at h
    by_cases hsock : w.sock ∈ (s.selectReady ready).members
    · simp only [hsock, decide_true] at h
      cases hacc : env.accept with
      | none =>
        rw [hacc] at h
        refine Or.inr (Or.inl ⟨hsock, rfl, ?_⟩)
        rw [← Except.ok.inj h]
        simp [State.record]
      | some newConn =>
        rw [hacc] at h
        simp only at h
        split at h
        · cases h
        · rename_i s₁ hadd
          exact Or.inr (Or.inr ⟨newConn, s₁, hsock, rfl, hadd, h⟩)
    · simp only [hsock, decide_false] at h
      exact Or.inl ⟨hsock, h⟩

end SimpleHttp
