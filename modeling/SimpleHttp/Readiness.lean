import SimpleHttp.Representation

namespace SimpleHttp

open Lib

/-!
# Which ready connections a round serves

* `DoneWith s s' fd` — between two states the connection on `fd` was handled, closed and forgotten.
* `scan_done` — the scan is done with every connection that `select` has reported.
* `SkipsReady` — the rounds that do not reach the scan although a connection is ready: those in
  which `accept` fails.
* `serverLoop_serves_ready_iff` — a run leaves no ready connection for a later `select` exactly if
  it has no such round.
-/

/-- From `s` to `s'` the connection behind `fd` has been handled and closed, and `fd` is not
    tracked any more. -/
def DoneWith (s s' : State) (fd : Fd) : Prop :=
  fd ∉ held s'.connections ∧ fd ∉ s'.allFds.members ∧
    ∃ events out, s'.log = s.log ++ events ∧ .handled fd (s.peer fd) out ∈ events ∧
      .closed fd ∈ events

/-- The round is done with every tracked connection that its `select` has reported ready. -/
def ReadyServed (s : State) (env : RoundEnv) (s' : State) : Prop :=
  ∀ ready, env.select = some ready → ∀ fd ∈ held s.connections,
    fd ∈ (s.selectReady ready).members → DoneWith s s' fd

/-- `select` reports the listening socket and a tracked connection, and `accept` fails. -/
def SkipsReady (w : World) (s : State) (env : RoundEnv) : Prop :=
  env.accept = none ∧ ∃ ready, env.select = some ready ∧ w.sock ∈ (s.selectReady ready).members ∧
    ∃ fd ∈ held s.connections, fd ∈ (s.selectReady ready).members

/-- A scan only adds to the log. -/
theorem prefix_log_scan {w : World} {readFds : FdSet fdSetSize} {s t : State}
    {slots : List (Fin fdSetSize)} (hrun : run (scanSlot w readFds) s slots = .ok t) :
    s.log <+: t.log := by
  refine run_invariant (P := fun m : State => s.log <+: m.log) ?_ (List.prefix_refl _) hrun
  intro m i m' hlog hstep
  rcases scanSlot_cases hstep with ⟨rfl, -⟩ | ⟨conn, out, -, -, -, rfl⟩
  · exact hlog
  · exact hlog.trans (List.prefix_append _ _)

/-- A scan only forgets connections. -/
theorem scan_subset {w : World} {readFds : FdSet fdSetSize} {s t : State}
    {slots : List (Fin fdSetSize)} (hd : Distinct s.connections)
    (hrun : run (scanSlot w readFds) s slots = .ok t) :
    held t.connections ⊆ held s.connections ∧ t.allFds.members ⊆ s.allFds.members := by
  refine (run_invariant (P := fun m : State => Distinct m.connections ∧
    held m.connections ⊆ held s.connections ∧ m.allFds.members ⊆ s.allFds.members)
    ?_ ⟨hd, subset_rfl, subset_rfl⟩ hrun).2
  rintro m i m' ⟨hd, hheld, hall⟩ hstep
  rcases scanSlot_cases hstep with ⟨rfl, -⟩ | ⟨conn, out, hconn, -, -, rfl⟩
  · exact ⟨hd, hheld, hall⟩
  · refine ⟨hd.free i, ?_, (Finset.erase_subset _ _).trans hall⟩
    show held (Function.update m.connections i none) ⊆ _
    rw [held_free hd hconn]
    exact (Finset.erase_subset _ _).trans hheld

/-- **Scan.**  It is done with every connection in a slot it passes that is in `read_fds`. -/
theorem scan_done {w : World} {readFds : FdSet fdSetSize} {s t : State}
    {slots : List (Fin fdSetSize)} (hd : Distinct s.connections)
    (hrun : run (scanSlot w readFds) s slots = .ok t) {i : Fin fdSetSize} (hi : i ∈ slots)
    {fd : Fd} (hfd : s.connections i = some fd) (hmem : fd ∈ readFds.members) :
    DoneWith s t fd := by
  -- over the slots that are still ahead; the one with the connection comes up or has come up
  induction slots generalizing s with
  | nil => cases hi
  | cons j slots ih =>
    obtain ⟨m, hstep, hrest⟩ := run_cons_eq_ok_iff.mp hrun
    rcases scanSlot_cases hstep with ⟨rfl, hidle⟩ | ⟨conn, out, hconn, -, -, rfl⟩
    · rcases List.mem_cons.mp hi with rfl | hi
      · exact absurd hmem (hidle fd hfd)
      · exact ih hd hrest hi hfd
    · have hd' : Distinct (s.finish j conn out (s.allFds.erase conn)).connections := hd.free j
      by_cases hij : i = j
      · -- this slot: nothing later in the scan brings the connection back
        subst hij
        obtain rfl : fd = conn := Option.some.inj (hfd.symm.trans hconn)
        obtain ⟨hheld, hall⟩ := scan_subset hd' hrest
        obtain ⟨events, hlog⟩ := prefix_log_scan hrest
        refine ⟨fun h => ?_, fun h => ?_, serve .httpServer2 fd (s.peer fd) out ++ events, out,
          ?_, ?_, ?_⟩
        · have := hheld h
          rw [show (s.finish i fd out (s.allFds.erase fd)).connections =
            Function.update s.connections i none from rfl, held_free hd hfd] at this
          exact Finset.notMem_erase fd _ this
        · exact Finset.notMem_erase fd _ (hall h)
        · rw [← hlog, ← List.append_assoc]
          rfl
        · exact List.mem_append_left _ List.mem_cons_self
        · exact List.mem_append_left _ (by simp [serve])
      · -- another slot: it has another connection, so this one still waits behind it
        have hne : fd ≠ conn := fun heq => hij (hd i j conn (heq ▸ hfd) hconn)
        have hi' : i ∈ slots := (List.mem_cons.mp hi).resolve_left hij
        have hfd' : (s.finish j conn out (s.allFds.erase conn)).connections i = some fd := by
          simp only [State.finish, Function.update_of_ne hij, hfd]
        obtain ⟨hheld, hall, events, out', hlog, hhandled, hclosed⟩ := ih hd' hrest hi' hfd'
        refine ⟨hheld, hall, serve .httpServer2 conn (s.peer conn) out ++ events, out', ?_, ?_, ?_⟩
        · rw [hlog, ← List.append_assoc]
          rfl
        · simp only [State.finish, Function.update_of_ne hne] at hhandled
          exact List.mem_append_right _ hhandled
        · exact List.mem_append_right _ hclosed

/-! ### Rounds -/

/-- What was done from a later state on was done from an earlier one on. -/
theorem DoneWith.of_later {s s₁ s' : State} {fd : Fd} (h : DoneWith s₁ s' fd)
    {events : List Event} (hlog : s₁.log = s.log ++ events) (hpeer : s₁.peer fd = s.peer fd) :
    DoneWith s s' fd := by
  obtain ⟨hheld, hall, events', out, hlog', hhandled, hclosed⟩ := h
  rw [hpeer] at hhandled
  exact ⟨hheld, hall, events ++ events', out, by rw [hlog', hlog, List.append_assoc],
    List.mem_append_right _ hhandled, List.mem_append_right _ hclosed⟩

/-- A round only adds to the log. -/
theorem prefix_log_round {w : World} {s s' : State} {env : RoundEnv}
    (h : round w s env = .ok s') : s.log <+: s'.log := by
  refine round_invariant (P := fun m => s.log <+: m.log) ?_ ?_ ?_ ?_ ?_ (List.prefix_refl _) h
  · exact fun m ready hm => hm.trans (List.prefix_append _ _)
  · exact fun m msg hm => hm.trans (List.prefix_append _ _)
  · exact fun m i fd readFds hlt hm _ _ _ => hm.trans (List.prefix_append _ _)
  · exact fun m fd hm _ =>
      hm.trans ((List.prefix_append _ _).trans (List.prefix_append (m.accept fd).log _))
  · exact fun m i conn out readFds hm _ _ _ _ => hm.trans (List.prefix_append _ _)

/-- Rounds only add to the log. -/
theorem prefix_log_run {w : World} {s t : State} {rounds : List RoundEnv}
    (h : run (round w) s rounds = .ok t) : s.log <+: t.log :=
  run_invariant (P := fun m => s.log <+: m.log)
    (fun _ _ _ hm hround => hm.trans (prefix_log_round hround)) (List.prefix_refl _) h

/-- A round that reaches its scan is done with every ready connection. -/
theorem round_serves {w : World} {base : Finset Fd} (hbase : w.sock ∈ base) {s s' : State}
    {env : RoundEnv} (hinv : Inv w s) (hfresh : FreshLog base s'.log)
    (hround : round w s env = .ok s') (hno : ¬ SkipsReady w s env) : ReadyServed s env s' := by
  intro ready hready fd hfd hmem
  obtain ⟨i, hi⟩ := mem_held.mp hfd
  rcases round_cases hround with ⟨hsel, -⟩ | ⟨ready', hsel, h⟩
  · rw [hready] at hsel
    cases hsel
  · obtain rfl : ready = ready' := Option.some.inj (hready.symm.trans hsel)
    rcases h with ⟨-, hscan⟩ | ⟨hsock, hacc, -⟩ | ⟨newConn, s₁, -, -, hadd, hscan⟩
    · exact (scan_done (s := s.record _) hinv.distinct hscan (List.mem_finRange i) hi hmem).of_later
        rfl rfl
    · exact absurd ⟨hacc, ready, hready, hsock, fd, hfd, hmem⟩ hno
    · -- the new connection's descriptor is not `fd`, which is open
      have hinv₀ : Inv w (s.record [.selected (s.selectReady ready)]) := hinv.record rfl
      have hfresh₁ : FreshLog base s₁.log := hfresh.mono (prefix_log_scan hscan)
      have hne : newConn ∉ held s.connections → fd ≠ newConn := fun hnew heq => hnew (heq ▸ hfd)
      rcases addConnection_cases hadd with ⟨j, hlt, hnone, rfl⟩ | ⟨-, hs₁⟩
      · obtain ⟨hnew, -⟩ := hinv₀.fresh hbase hfresh₁
        have hij : i ≠ j := by
          rintro rfl
          exact Option.some_ne_none fd (hi.symm.trans hnone)
        refine (scan_done (hinv₀.track hbase hlt hnone hfresh₁).distinct hscan
          (List.mem_finRange i) ?_ hmem).of_later (List.append_assoc _ _ _) ?_
        · exact (Function.update_of_ne hij _ _).trans hi
        · exact Function.update_of_ne (hne hnew) _ _
      · -- the table is full: what is rejected was never in it
        have hconns : s₁.connections = s.connections := by rw [hs₁]; rfl
        have hlog : s₁.log = s.log ++ ([.selected (s.selectReady ready)] ++
            ([.accepted newConn s.accepted] ++
              [.print (ascii "Too many connections, rejecting new connection\n"),
                .closed newConn])) := by
          rw [hs₁]
          simp [State.reject, State.accept, State.record]
        have hnew : newConn ∉ held s.connections := by
          rw [hlog, ← List.append_assoc, ← List.append_assoc] at hfresh₁
          exact (hinv₀.fresh hbase hfresh₁.left).1
        have hpeer : s₁.peer fd = s.peer fd := by
          rw [hs₁]
          simp only [State.reject, State.accept, State.record, Function.update_of_ne (hne hnew)]
        exact (scan_done (by rw [hconns]; exact hinv.distinct) hscan (List.mem_finRange i)
          (by rw [hconns]; exact hi) hmem).of_later hlog hpeer

/-- A round in which `accept` fails leaves every ready connection as it is. -/
theorem round_skips {w : World} {s s' : State} {env : RoundEnv} (hround : round w s env = .ok s')
    (hskip : SkipsReady w s env) : ¬ ReadyServed s env s' := by
  obtain ⟨hacc, ready, hready, hsock, fd, hfd, hmem⟩ := hskip
  intro hserved
  have hdone := (hserved ready hready fd hfd hmem).1
  rcases round_cases hround with ⟨hsel, -⟩ | ⟨ready', hsel, h⟩
  · rw [hready] at hsel
    cases hsel
  · obtain rfl : ready = ready' := Option.some.inj (hready.symm.trans hsel)
    rcases h with ⟨hnot, -⟩ | ⟨-, -, rfl⟩ | ⟨newConn, s₁, -, hsome, -, -⟩
    · exact hnot hsock
    · exact hdone hfd
    · rw [hacc] at hsome
      cases hsome

/-- **Ready connections are served.**  In every run, every round is done with the tracked
    connections its `select` has reported, exactly if there is no round in which `accept` fails
    while a tracked connection is ready. -/
theorem serverLoop_serves_ready_iff {w : World} {base : Finset Fd} (hbase : w.sock ∈ base)
    {rounds : List RoundEnv} {s : State} (hrun : serverLoop w rounds = .ok s)
    (hfresh : FreshLog base s.log) :
    AlongRun (round w) (initial w) rounds
        (fun m env => ∀ m', round w m env = .ok m' → ReadyServed m env m') ↔
      AlongRun (round w) (initial w) rounds (fun m env => ¬ SkipsReady w m env) := by
  apply alongRun_congr
  intro pre env post m heq hm
  obtain ⟨m₁, m', hm₁, hround, hrest⟩ := run_split (heq ▸ hrun)
  obtain rfl : m = m₁ := Except.ok.inj (hm.symm.trans hm₁)
  have hfresh' : FreshLog base m'.log := hfresh.mono (prefix_log_run hrest)
  have hinv : Inv w m := inv_of_serverLoop hbase hm (hfresh'.mono (prefix_log_round hround))
  constructor
  · exact fun h hskip => round_skips hround hskip (h m' hround)
  · intro hno m'' hround'
    obtain rfl : m' = m'' := Except.ok.inj (hround.symm.trans hround')
    exact round_serves hbase hinv hfresh' hround hno

/-- In `smallWorld` no `accept` fails, so both rounds are done with what is ready. -/
theorem serverLoop_serves_smallWorld :
    AlongRun (round smallWorld) (initial smallWorld) [⟨some {3}, some 4⟩, ⟨some {3, 4}, some 5⟩]
      (fun m env => ∀ m', round smallWorld m env = .ok m' → ReadyServed m env m') := by
  obtain ⟨s, hrun, hfresh⟩ := smallWorld_run
  apply (serverLoop_serves_ready_iff (Finset.mem_singleton_self 3) hrun hfresh).mpr
  rintro pre env post m heq - ⟨hacc, -⟩
  have hmem : env ∈ [⟨some {3}, some 4⟩, (⟨some {3, 4}, some 5⟩ : RoundEnv)] := by
    rw [heq]
    simp
  simp only [List.mem_cons, List.not_mem_nil, or_false] at hmem
  rcases hmem with rfl | rfl <;> cases hacc

/-- The connection 4 is ready, but so is the listening socket, and `accept` fails: the round ends
    with the connection still waiting. -/
theorem accept_failure_skips :
    ∃ m m', serverLoop smallWorld [⟨some {3}, some 4⟩] = .ok m ∧
      round smallWorld m ⟨some {3, 4}, none⟩ = .ok m' ∧ FreshLog {3} m'.log ∧
      ¬ ReadyServed m ⟨some {3, 4}, none⟩ m' := by
  have hstate : (serverLoop smallWorld [⟨some {3}, some 4⟩]).map (fun m =>
        decide (m.connections ⟨0, by decide⟩ = some 4 ∧ (m.selectReady {3, 4}).members = {3, 4} ∧
          fdEvents m.log = [.opened 4])) = .ok true := by decide +kernel
  obtain ⟨m, hrun, hdecide⟩ := exists_of_map_eq_ok hstate
  obtain ⟨hslot, hready, hevents⟩ : m.connections ⟨0, by decide⟩ = some 4 ∧
      (m.selectReady {3, 4}).members = {3, 4} ∧ fdEvents m.log = [.opened 4] :=
    of_decide_eq_true hdecide
  have hsock : smallWorld.sock ∈ (m.selectReady {3, 4}).members := by
    rw [hready]
    decide
  have hround : round smallWorld m ⟨some {3, 4}, none⟩ =
      .ok ((m.record [.selected (m.selectReady {3, 4})]).record
        [.perror (ascii "http_server2: accept error")]) := by
    simp only [round, fdIsSet_sock, hsock, decide_true]
  refine ⟨m, _, hrun, hround, ?_, round_skips hround ⟨rfl, _, rfl, hsock, 4, ?_, ?_⟩⟩
  · rw [FreshLog, State.record, State.record, fdEvents_append, fdEvents_append, hevents]
    simp [FreshFrom, fdEvents, Event.fdEvents]
  · exact mem_held.mpr ⟨_, hslot⟩
  · rw [hready]
    decide

end SimpleHttp
