import SimpleHttp.Server2

namespace SimpleHttp

open Lib

/-!
# The representation invariant of `http_server2`'s loop

* `round_invariant` — what the five updates of a round preserve holds behind every round.
* `Inv w s` — the slots, `all_fds`, `max_fd` and the kernel's open descriptors agree.
* `Inv.track`, `Inv.reject`, `Inv.finish` — each update keeps it, as long as the kernel hands out
  descriptors that are not open (`FreshLog`).
* `serverLoop_inv` — so it holds at the top of every round of every run.
-/

/-! ### What a round is made of -/

/-- The last set that `select` has returned. -/
def lastSelected (log : List Event) : Option (FdSet fdSetSize) :=
  log.foldl (fun last e => match e with
    | .selected readFds => some readFds
    | _ => last) none

@[simp] theorem lastSelected_selected (log : List Event) (readFds : FdSet fdSetSize) :
    lastSelected (log ++ [.selected readFds]) = some readFds := by
  rw [lastSelected, List.foldl_append]
  rfl

/-- Events that are no `select` leave the last one. -/
theorem lastSelected_append {events : List Event} (h : ∀ r, .selected r ∉ events)
    (log : List Event) : lastSelected (log ++ events) = lastSelected log := by
  rw [lastSelected, lastSelected, List.foldl_append]
  generalize List.foldl _ none log = last
  induction events with
  | nil => rfl
  | cons e events ih =>
    have hrest : ∀ r, .selected r ∉ events := fun r hr => h r (List.mem_cons_of_mem _ hr)
    cases e with
    | selected r => exact absurd List.mem_cons_self (h r)
    | _ => exact ih hrest

/-- To serve is not to select. -/
theorem selected_notMem_serve (srv : Server) (fd : Fd) (conn : Option ConnId) (out : Outcome)
    (r : FdSet fdSetSize) : .selected r ∉ serve srv fd conn out := by
  unfold serve
  split <;> simp

/-- **Invariant rule for a round.**  A round is made of five updates: `select` or a message is
    recorded, an accepted connection is tracked or rejected, a ready connection is finished. -/
theorem round_invariant {w : World} {P : State → Prop}
    (hselected : ∀ s ready, P s → P (s.record [.selected (s.selectReady ready)]))
    (hperror : ∀ s msg, P s → P (s.record [.perror msg]))
    (htrack : ∀ s i fd readFds (h : fd < fdSetSize), P s → lastSelected s.log = some readFds →
      readFds.members ⊆ s.allFds.members → s.connections i = none →
      P ((s.accept fd).track i fd (s.allFds.insert fd h)))
    (hreject : ∀ s fd, P s → firstEmpty s.connections = none → P ((s.accept fd).reject fd))
    (hfinish : ∀ s i conn out readFds, P s → lastSelected s.log = some readFds →
      conn ∈ readFds.members → s.connections i = some conn →
      Server2.handleConnection w.fs (connEnv w s conn) = .ok out →
      P (s.finish i conn out (s.allFds.erase conn)))
    {s s' : State} {env : RoundEnv} (hs : P s) (hround : round w s env = .ok s') : P s' := by
  -- the scan does not call `select`, so `read_fds` stays what was selected last
  have hscan : ∀ readFds s₁, P s₁ → lastSelected s₁.log = some readFds →
      scan w readFds s₁ = .ok s' → P s' := by
    intro readFds s₁ hP hlast hrun
    refine (run_invariant (P := fun m => P m ∧ lastSelected m.log = some readFds) ?_
      ⟨hP, hlast⟩ hrun).1
    rintro m i m' ⟨hm, hlast⟩ hstep
    rcases scanSlot_cases hstep with ⟨rfl, -⟩ | ⟨conn, out, hconn, hmem, hrun, rfl⟩
    · exact ⟨hm, hlast⟩
    · refine ⟨hfinish m i conn out readFds hm hlast hmem hconn hrun, ?_⟩
      rw [← hlast]
      exact lastSelected_append (selected_notMem_serve _ _ _ _) _
  rcases round_cases hround with ⟨-, rfl⟩ | ⟨ready, -, h⟩
  · exact hperror s _ hs
  · have hsel := hselected s ready hs
    have hlast : lastSelected (s.record [.selected (s.selectReady ready)]).log =
        some (s.selectReady ready) := lastSelected_selected _ _
    rcases h with ⟨-, hrun⟩ | ⟨-, -, rfl⟩ | ⟨newConn, s₁, -, -, hadd, hrun⟩
    · exact hscan _ _ hsel hlast hrun
    · have h := hperror _ (ascii "http_server2: accept error") hsel
      simpa [State.record] using h
    · rcases addConnection_cases hadd with ⟨i, hlt, hnone, rfl⟩ | ⟨hfull, rfl⟩
      · have hnew := htrack _ i newConn _ hlt hsel hlast (Finset.filter_subset _ _) hnone
        refine hscan _ _ hnew ?_ hrun
        rw [← hlast]
        exact lastSelected_append (by simp) _
      · refine hscan _ _ (hreject _ newConn hsel hfull) ?_ hrun
        rw [← hlast]
        show lastSelected (_ ++ _ ++ _) = _
        rw [lastSelected_append (by simp), lastSelected_append (by simp)]

/-! ### The invariant -/

/-- The kernel hands out descriptors that are not open; those of `base` are open throughout. -/
def FreshLog (base : Finset Fd) (log : List Event) : Prop := FreshFrom base ∅ (fdEvents log)

/-- The descriptors opened by `accept` or `fopen` and not closed yet. -/
def openFds (log : List Event) : Finset Fd := openFrom ∅ (fdEvents log)

/-- **Representation invariant.** -/
structure Inv (w : World) (s : State) : Prop where
  /-- The slots hold different descriptors, none of them the listening socket. -/
  distinct : Distinct s.connections
  sock_notMem : w.sock ∉ held s.connections
  /-- `all_fds` is the listening socket and the descriptors in the slots. -/
  allFds_eq : s.allFds.members = insert w.sock (held s.connections)
  le_maxFd : ∀ fd ∈ s.allFds.members, fd ≤ s.maxFd
  /-- The open descriptors are those in the slots, and no other was ever closed. -/
  open_eq : openFds s.log = held s.connections
  closes_open : ClosesOpenFrom ∅ (fdEvents s.log)

theorem FreshLog.left {base : Finset Fd} {a b : List Event} (h : FreshLog base (a ++ b)) :
    FreshLog base a := by
  rw [FreshLog, fdEvents_append, freshFrom_append] at h
  exact h.1

/-- The front of a fresh log is fresh. -/
theorem FreshLog.mono {base : Finset Fd} {a b : List Event} (h : FreshLog base b)
    (hab : a <+: b) : FreshLog base a := by
  obtain ⟨c, rfl⟩ := hab
  exact h.left

/-- Behind its front, the descriptors of a fresh log are fresh for those still open. -/
theorem FreshLog.right {base : Finset Fd} {a b : List Event} (h : FreshLog base (a ++ b)) :
    FreshFrom base (openFds a) (fdEvents b) := by
  rw [FreshLog, fdEvents_append, freshFrom_append] at h
  exact h.2

theorem openFds_append (a b : List Event) :
    openFds (a ++ b) = openFrom (openFds a) (fdEvents b) := by
  rw [openFds, fdEvents_append, openFrom_append, openFds]

/-- At first no slot is in use. -/
theorem held_initial (w : World) : held (initial w).connections = ∅ := by
  ext fd
  simp [mem_held, initial]

/-- The invariant, at first. -/
theorem inv_initial (w : World) : Inv w (initial w) where
  distinct i j fd hi _ := by cases hi
  sock_notMem := by simp [held_initial]
  allFds_eq := by rw [held_initial]; rfl
  le_maxFd fd hfd := by
    have : fd = w.sock := by simpa [initial, FdSet.insert, FdSet.empty] using hfd
    exact this.le
  open_eq := by rw [held_initial]; rfl
  closes_open := trivial

/-- Events that open and close nothing do not matter. -/
theorem Inv.record {w : World} {s : State} (h : Inv w s) {events : List Event}
    (hquiet : fdEvents events = []) : Inv w (s.record events) where
  distinct := h.distinct
  sock_notMem := h.sock_notMem
  allFds_eq := h.allFds_eq
  le_maxFd := h.le_maxFd
  open_eq := by
    show openFds (s.log ++ events) = _
    rw [openFds_append, hquiet]
    exact h.open_eq
  closes_open := by
    show ClosesOpenFrom ∅ (fdEvents (s.log ++ events))
    rw [fdEvents_append, hquiet, List.append_nil]
    exact h.closes_open

/-- The descriptor that `accept` returns is in no slot, and is not the listening socket. -/
theorem Inv.fresh {w : World} {s : State} (h : Inv w s) {base : Finset Fd} (hbase : w.sock ∈ base)
    {fd : Fd} {events : List Event}
    (hfresh : FreshLog base (s.log ++ .accepted fd s.accepted :: events)) :
    fd ∉ held s.connections ∧ fd ≠ w.sock := by
  obtain ⟨⟨hfd, hopen⟩, -⟩ := hfresh.right
  rw [h.open_eq] at hopen
  exact ⟨hopen, fun heq => hfd (heq ▸ hbase)⟩

/-- `max_fd` never falls, and is not below a descriptor in use. -/
theorem le_maxFd_track (s : State) (i : Fin fdSetSize) (fd : Fd) (allFds : FdSet fdSetSize) :
    fd ≤ (s.track i fd allFds).maxFd ∧ s.maxFd ≤ (s.track i fd allFds).maxFd := by
  unfold State.track
  dsimp only
  split
  · rename_i hlt
    exact ⟨le_rfl, le_of_lt hlt⟩
  · rename_i hge
    exact ⟨le_of_not_gt hge, le_rfl⟩

/-- An accepted connection is put into a free slot. -/
theorem Inv.track {w : World} {s : State} (h : Inv w s) {base : Finset Fd} (hbase : w.sock ∈ base)
    {i : Fin fdSetSize} {fd : Fd} (hlt : fd < fdSetSize) (hnone : s.connections i = none)
    (hfresh : FreshLog base (s.log ++ [.accepted fd s.accepted])) :
    Inv w ((s.accept fd).track i fd (s.allFds.insert fd hlt)) := by
  obtain ⟨hfd, hsock⟩ := h.fresh hbase hfresh
  have hheld : held ((s.accept fd).track i fd (s.allFds.insert fd hlt)).connections =
      insert fd (held s.connections) := held_fill hnone fd
  refine ⟨h.distinct.fill hfd i, ?_, ?_, ?_, ?_, ?_⟩
  · rw [hheld, Finset.mem_insert, not_or]
    exact ⟨hsock.symm, h.sock_notMem⟩
  · rw [hheld]
    show insert fd s.allFds.members = _
    rw [h.allFds_eq, Finset.insert_comm]
  · -- `max_fd` covers the new descriptor and does not shrink
    intro fd' hfd'
    obtain ⟨hnew, hold⟩ := le_maxFd_track (s.accept fd) i fd (s.allFds.insert fd hlt)
    rcases Finset.mem_insert.mp hfd' with rfl | hfd'
    · exact hnew
    · exact (h.le_maxFd fd' hfd').trans hold
  · rw [hheld]
    show openFds (s.log ++ [.accepted fd s.accepted]) = _
    rw [openFds_append, h.open_eq]
    rfl
  · show ClosesOpenFrom ∅ (fdEvents (s.log ++ [.accepted fd s.accepted]))
    rw [fdEvents_append, closesOpenFrom_append]
    exact ⟨h.closes_open, trivial⟩

/-- An accepted connection is closed again, for want of a slot. -/
theorem Inv.reject {w : World} {s : State} (h : Inv w s) {base : Finset Fd} (hbase : w.sock ∈ base)
    {fd : Fd} (hfresh : FreshLog base ((s.accept fd).reject fd).log) :
    Inv w ((s.accept fd).reject fd) := by
  have hlog : ((s.accept fd).reject fd).log = s.log ++ [.accepted fd s.accepted,
      .print (ascii "Too many connections, rejecting new connection\n"), .closed fd] := by
    simp [State.reject, State.accept]
  rw [hlog] at hfresh
  obtain ⟨hfd, -⟩ := h.fresh hbase hfresh
  refine ⟨h.distinct, h.sock_notMem, h.allFds_eq, h.le_maxFd, ?_, ?_⟩
  · rw [hlog, openFds_append, h.open_eq]
    exact Finset.erase_insert hfd
  · rw [hlog, fdEvents_append, closesOpenFrom_append]
    exact ⟨h.closes_open, Finset.mem_insert_self _ _, trivial⟩

/-- A connection that is served, as descriptors opened and closed. -/
theorem fdEvents_serve (srv : Server) (fd : Fd) (conn : Option ConnId) (out : Outcome) :
    fdEvents (serve srv fd conn out) = out.calls.flatMap Call.fdEvents ++ [.closed fd] := by
  unfold serve fdEvents
  split <;> simp [Event.fdEvents]

/-- A connection is handled, closed and forgotten. -/
theorem Inv.finish {w : World} {s : State} (h : Inv w s) {base : Finset Fd}
    {i : Fin fdSetSize} {conn : Fd} {out : Outcome} (hconn : s.connections i = some conn)
    (hrun : Server2.handleConnection w.fs (connEnv w s conn) = .ok out)
    (hfresh : FreshLog base (s.log ++ serve .httpServer2 conn (s.peer conn) out)) :
    Inv w (s.finish i conn out (s.allFds.erase conn)) := by
  have hheld : held (s.finish i conn out (s.allFds.erase conn)).connections =
      (held s.connections).erase conn := held_free h.distinct hconn
  have hmem : conn ∈ held s.connections := mem_held.mpr ⟨i, hconn⟩
  -- the listening socket is in no slot, so `FD_CLR` does not reach it
  have hsock : conn ≠ w.sock := fun heq => h.sock_notMem (heq ▸ hmem)
  have hclose : openFrom (held s.connections)
        (fdEvents (serve .httpServer2 conn (s.peer conn) out)) = (held s.connections).erase conn ∧
      ClosesOpenFrom (held s.connections)
        (fdEvents (serve .httpServer2 conn (s.peer conn) out)) := by
    have hf := hfresh.right
    rw [h.open_eq] at hf
    rw [fdEvents_serve] at hf ⊢
    rcases fdEvents_handleConnection hrun with hnil | hfile
    · rw [hnil]
      exact ⟨rfl, hmem, trivial⟩
    · -- the file is closed before the connection is
      rw [hfile] at hf ⊢
      obtain ⟨⟨-, hnew⟩, -⟩ := hf
      have herase := Finset.erase_insert hnew
      simp only [List.cons_append, List.nil_append, openFrom, ClosesOpenFrom, herase]
      exact ⟨trivial, Finset.mem_insert_self _ _, hmem, trivial⟩
  refine ⟨h.distinct.free i, ?_, ?_, ?_, ?_, ?_⟩
  · rw [hheld]
    exact fun hm => h.sock_notMem (Finset.mem_of_mem_erase hm)
  · rw [hheld]
    show s.allFds.members.erase conn = _
    rw [h.allFds_eq, Finset.erase_insert_of_ne hsock.symm]
  · -- `max_fd` stays as it is and need not be attained any more
    exact fun fd hfd => h.le_maxFd fd (Finset.mem_of_mem_erase hfd)
  · rw [hheld]
    show openFds (s.log ++ serve .httpServer2 conn (s.peer conn) out) = _
    rw [openFds_append, h.open_eq]
    exact hclose.1
  · show ClosesOpenFrom ∅ (fdEvents (s.log ++ serve .httpServer2 conn (s.peer conn) out))
    rw [fdEvents_append, closesOpenFrom_append]
    refine ⟨h.closes_open, ?_⟩
    rw [← openFds, h.open_eq]
    exact hclose.2

/-- **Rounds keep the invariant.** -/
theorem inv_round {w : World} {base : Finset Fd} (hbase : w.sock ∈ base) {s s' : State}
    {env : RoundEnv} (hs : FreshLog base s.log → Inv w s) (hround : round w s env = .ok s') :
    FreshLog base s'.log → Inv w s' := by
  refine round_invariant (P := fun s => FreshLog base s.log → Inv w s) ?_ ?_ ?_ ?_ ?_ hs hround
  · exact fun s ready h hfresh => (h hfresh.left).record rfl
  · exact fun s msg h hfresh => (h hfresh.left).record rfl
  · exact fun s i fd readFds hlt h _ _ hnone hfresh =>
      (h hfresh.left).track hbase hlt hnone hfresh
  · exact fun s fd h _ hfresh => (h hfresh.left.left).reject hbase hfresh
  · exact fun s i conn out readFds h _ _ hconn hrun hfresh =>
      (h hfresh.left).finish hconn hrun hfresh

/-- **Runs** keep the invariant, as long as descriptors are fresh. -/
theorem inv_of_serverLoop {w : World} {base : Finset Fd} (hbase : w.sock ∈ base)
    {rounds : List RoundEnv} {s : State} (hrun : serverLoop w rounds = .ok s)
    (hfresh : FreshLog base s.log) : Inv w s :=
  run_invariant (P := fun s => FreshLog base s.log → Inv w s)
    (fun _ _ _ hm hround => inv_round hbase hm hround) (fun _ => inv_initial w) hrun hfresh

/-! ### Runs are defined -/

/-- `handle_connection` returns on every connection. -/
def World.Handles (w : World) : Prop :=
  ∀ id, ∃ out, Server2.handleConnection w.fs (w.conn id) = .ok out

/-- The descriptors in the slots can be used with an `fd_set`. -/
def InRange (s : State) : Prop := ∀ i fd, s.connections i = some fd → fd < fdSetSize

/-- A slot that takes a descriptor in range leaves the slots in range. -/
theorem InRange.track {s : State} (hs : InRange s) {fd : Fd} (hlt : fd < fdSetSize)
    (i : Fin fdSetSize) (allFds : FdSet fdSetSize) : InRange (s.track i fd allFds) := by
  intro j fd' hj
  by_cases hij : j = i
  · subst hij
    obtain rfl : fd = fd' := by simpa [State.track] using hj
    exact hlt
  · simp only [State.track, Function.update_of_ne hij] at hj
    exact hs j fd' hj

/-- A slot that is emptied leaves the slots in range. -/
theorem InRange.finish {s : State} (hs : InRange s) (i : Fin fdSetSize) (conn : Fd)
    (out : Outcome) (allFds : FdSet fdSetSize) : InRange (s.finish i conn out allFds) := by
  intro j fd hj
  by_cases hij : j = i
  · subst hij
    simp [State.finish] at hj
  · simp only [State.finish, Function.update_of_ne hij] at hj
    exact hs j fd hj

/-- `handle_connection` returns on what is in a slot. -/
theorem connEnv_handles {w : World} (hw : w.Handles) (s : State) (fd : Fd) :
    ∃ out, Server2.handleConnection w.fs (connEnv w s fd) = .ok out := by
  unfold connEnv
  split
  · exact hw _
  · exact ⟨_, rfl⟩

/-- A slot's turn is defined. -/
theorem scanSlot_total {w : World} (hw : w.Handles) (readFds : FdSet fdSetSize) {s : State}
    (hs : InRange s) (i : Fin fdSetSize) :
    ∃ s', scanSlot w readFds s i = .ok s' ∧ InRange s' := by
  cases hconn : s.connections i with
  | none => exact ⟨s, by simp only [scanSlot, hconn], hs⟩
  | some conn =>
    have hlt := hs i conn hconn
    obtain ⟨out, hrun⟩ := connEnv_handles hw s conn
    by_cases hmem : conn ∈ readFds.members
    · refine ⟨s.finish i conn out (s.allFds.erase conn), ?_, hs.finish i conn out _⟩
      simp only [scanSlot, hconn, fdIsSet, if_pos hlt, hmem, decide_true, hrun, fdClr]
    · exact ⟨s, by simp only [scanSlot, hconn, fdIsSet, if_pos hlt, hmem, decide_false], hs⟩

/-- An `accept` of a descriptor in range is defined. -/
theorem addConnection_total {s : State} (hs : InRange s) {fd : Fd} (hlt : fd < fdSetSize) :
    ∃ s', addConnection s fd = .ok s' ∧ InRange s' := by
  cases hfree : firstEmpty s.connections with
  | none => exact ⟨s.reject fd, addConnection_of_full hfree fd, hs⟩
  | some i => exact ⟨_, addConnection_of_slot hfree hlt, hs.track hlt i _⟩

/-- **A round** is defined if what it accepts is in range. -/
theorem round_total {w : World} (hw : w.Handles) {s : State} (hs : InRange s) {env : RoundEnv}
    (haccept : ∀ fd, env.accept = some fd → fd < fdSetSize) :
    ∃ s', round w s env = .ok s' ∧ InRange s' := by
  cases hsel : env.select with
  | none =>
    exact ⟨s.record [.perror (ascii "http_server2: select error")], by simp only [round, hsel], hs⟩
  | some ready =>
    have hscan : ∀ s₁, InRange s₁ →
        ∃ s', scan w (s.selectReady ready) s₁ = .ok s' ∧ InRange s' := fun s₁ hs₁ =>
      run_total (fun m i _ hm => scanSlot_total hw _ hm i) hs₁
    simp only [round, hsel, fdIsSet_sock]
    by_cases hsock : w.sock ∈ (s.selectReady ready).members
    · simp only [hsock, decide_true]
      cases hacc : env.accept with
      | none =>
        exact ⟨(s.record [.selected (s.selectReady ready)]).record
          [.perror (ascii "http_server2: accept error")], rfl, hs⟩
      | some newConn =>
        obtain ⟨s₁, hadd, hs₁⟩ := addConnection_total
          (s := (s.record [.selected (s.selectReady ready)]).accept newConn) hs
          (haccept newConn hacc)
        simp only [hadd]
        exact hscan s₁ hs₁
    · simp only [hsock, decide_false]
      exact hscan _ hs

/-- **The representation invariant at the top of every round.**  A run in which `accept` returns
    descriptors below `FD_SETSIZE` is defined, and if the kernel only hands out descriptors that
    are not open, the invariant holds behind it. -/
theorem serverLoop_inv {w : World} (hw : w.Handles) {rounds : List RoundEnv}
    (haccept : ∀ env ∈ rounds, ∀ fd, env.accept = some fd → fd < fdSetSize)
    {base : Finset Fd} (hbase : w.sock ∈ base) :
    ∃ s, serverLoop w rounds = .ok s ∧ (FreshLog base s.log → Inv w s) := by
  have hround : ∀ m env, env ∈ rounds → InRange m →
      ∃ m', round w m env = .ok m' ∧ InRange m' := fun m env henv hm =>
    round_total hw hm (haccept env henv)
  have hstart : InRange (initial w) := fun i fd hfd => by cases hfd
  obtain ⟨s, hrun, -⟩ := run_total hround hstart
  exact ⟨s, hrun, inv_of_serverLoop hbase hrun⟩

/-- Every client asks for `/a`, a file of three bytes that is opened as descriptor 9. -/
def smallWorld : World where
  fs _ := some (ascii "abc")
  conn _ := ⟨[.data requestForA], 9, [3], []⟩
  sock := 3
  sock_lt := by decide

/-- A connection is accepted as 4, then handled while another is accepted as 5. -/
theorem smallWorld_run :
    ∃ s, serverLoop smallWorld [⟨some {3}, some 4⟩, ⟨some {3, 4}, some 5⟩] = .ok s ∧
      FreshLog {3} s.log := by
  have hmap : (serverLoop smallWorld [⟨some {3}, some 4⟩, ⟨some {3, 4}, some 5⟩]).map
        (fun s => fdEvents s.log) =
      .ok [.opened 4, .opened 5, .opened 9, .closed 9, .closed 4] := by decide +kernel
  obtain ⟨s, hrun, hevents⟩ := exists_of_map_eq_ok hmap
  refine ⟨s, hrun, ?_⟩
  rw [FreshLog, hevents]
  simp [FreshFrom]

/-- The invariant behind the two rounds. -/
theorem serverLoop_inv_smallWorld :
    ∃ s, serverLoop smallWorld [⟨some {3}, some 4⟩, ⟨some {3, 4}, some 5⟩] = .ok s ∧
      Inv smallWorld s := by
  have hw : smallWorld.Handles := fun _ => ⟨_, rfl⟩
  have haccept : ∀ env ∈ ([⟨some {3}, some 4⟩, ⟨some {3, 4}, some 5⟩] : List RoundEnv),
      ∀ fd, env.accept = some fd → fd < fdSetSize := by simp [fdSetSize]
  obtain ⟨s, hrun, hinv⟩ := serverLoop_inv hw haccept (Finset.mem_singleton_self 3)
  obtain ⟨s', hrun', hfresh⟩ := smallWorld_run
  obtain rfl : s = s' := Except.ok.inj (hrun.symm.trans hrun')
  exact ⟨s, hrun, hinv hfresh⟩

end SimpleHttp
