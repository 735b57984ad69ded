import SimpleHttp.Readiness
import SimpleHttp.Refinement

namespace SimpleHttp

open Lib

/-!
# No connection is lost

* `Inv.exists_slot` — there is a free slot in every state, so nobody is ever rejected.
* `Accounted s` — every connection accepted so far has been handled or waits in a slot.
* `serverLoop_accounts` — the connections handled and those waiting add up in every run.
* `serverLoop_drains` — a round in which all that wait are ready leaves nobody waiting.
* `acceptLoop_settles` — between two `accept` calls of `http_server1` nothing is open.
-/

/-- What is written when there is no slot. -/
def tooMany : Event := .print (ascii "Too many connections, rejecting new connection\n")

/-- The connection `id` is in a slot. -/
def Waiting (s : State) (id : ConnId) : Prop := ∃ fd ∈ held s.connections, s.peer fd = some id

/-- Every accepted connection is accounted for, and none was turned away. -/
structure Accounted (s : State) : Prop where
  handled_or_waiting : ∀ id < s.accepted, some id ∈ handledConns s.log ∨ Waiting s id
  count : (handledConns s.log).length + (held s.connections).card = s.accepted
  none_rejected : tooMany ∉ s.log

/-- **A slot is free.**  The descriptors in the slots are below `FD_SETSIZE`, and none of them is
    the listening socket's, so there are fewer of them than slots. -/
theorem Inv.exists_slot {w : World} {s : State} (h : Inv w s) :
    firstEmpty s.connections ≠ none := by
  intro hfull
  have hsub : s.allFds.members ⊆ Finset.range fdSetSize := by
    intro fd hfd
    exact Finset.mem_range.mpr (s.allFds.lt fd hfd)
  have hcard := Finset.card_le_card hsub
  rw [h.allFds_eq, Finset.card_insert_of_notMem h.sock_notMem, card_held_of_full h.distinct hfull,
    Finset.card_range] at hcard
  omega

/-- Before the first round, there is none. -/
theorem accounted_initial (w : World) : Accounted (initial w) where
  handled_or_waiting id hid := absurd hid (Nat.not_lt_zero id)
  count := by
    rw [held_initial]
    rfl
  none_rejected := List.not_mem_nil

/-- Events that are no handling and no rejection do not matter. -/
theorem Accounted.record {s : State} (h : Accounted s) {events : List Event}
    (hno : NoneHandled events) (hkept : tooMany ∉ events) : Accounted (s.record events) where
  handled_or_waiting id hid := by
    show some id ∈ handledConns (s.log ++ events) ∨ _
    rw [hno.handledConns]
    exact h.handled_or_waiting id hid
  count := by
    show (handledConns (s.log ++ events)).length + _ = _
    rw [hno.handledConns]
    exact h.count
  none_rejected := by
    intro hin
    rcases List.mem_append.mp hin with hin | hin
    · exact h.none_rejected hin
    · exact hkept hin

/-- A new connection waits. -/
theorem Accounted.track {s : State} (h : Accounted s) {i : Fin fdSetSize} {fd : Fd}
    (hlt : fd < fdSetSize) (hnone : s.connections i = none) (hfd : fd ∉ held s.connections) :
    Accounted ((s.accept fd).track i fd (s.allFds.insert fd hlt)) := by
  have hno : NoneHandled [Event.accepted fd s.accepted] := by simp [NoneHandled]
  have hconns : handledConns ((s.accept fd).track i fd (s.allFds.insert fd hlt)).log =
      handledConns s.log := hno.handledConns s.log
  have hheld : held ((s.accept fd).track i fd (s.allFds.insert fd hlt)).connections =
      insert fd (held s.connections) := held_fill hnone fd
  have haccepted : ((s.accept fd).track i fd (s.allFds.insert fd hlt)).accepted =
      s.accepted + 1 := rfl
  constructor
  · intro id hid
    rw [haccepted] at hid
    rw [hconns, Waiting, hheld]
    rcases Nat.lt_succ_iff_lt_or_eq.mp hid with hid | rfl
    · rcases h.handled_or_waiting id hid with hhandled | ⟨fd', hfd', hpeer⟩
      · exact .inl hhandled
      · have hne : fd' ≠ fd := fun heq => hfd (heq ▸ hfd')
        exact .inr ⟨fd', Finset.mem_insert_of_mem hfd', (Function.update_of_ne hne ..).trans hpeer⟩
    · exact .inr ⟨fd, Finset.mem_insert_self .., Function.update_self ..⟩
  · rw [hconns, hheld, haccepted, Finset.card_insert_of_notMem hfd, ← Nat.add_assoc, h.count]
  · intro hin
    rcases List.mem_append.mp hin with hin | hin
    · exact h.none_rejected hin
    · simp [tooMany] at hin

/-- Serving a connection prints no rejection. -/
theorem tooMany_notMem_serve (fd : Fd) (conn : Option ConnId) (out : Outcome) :
    tooMany ∉ serve .httpServer2 fd conn out := by
  have hne : ascii "Too many connections, rejecting new connection\n" ≠
      Server.name .httpServer2 ++ ascii ": error handling connection\n" := by decide +kernel
  unfold serve
  split
  · simp [hne, tooMany]
  · simp [tooMany]

/-- A connection that was waiting has been handled. -/
theorem Accounted.finish {s : State} (h : Accounted s) (hd : Distinct s.connections)
    {i : Fin fdSetSize} {conn : Fd} (hconn : s.connections i = some conn) (out : Outcome) :
    Accounted (s.finish i conn out (s.allFds.erase conn)) := by
  have hmem : conn ∈ held s.connections := mem_held.mpr ⟨i, hconn⟩
  have hheld : held (s.finish i conn out (s.allFds.erase conn)).connections =
      (held s.connections).erase conn := held_free hd hconn
  have hconns : handledConns (s.finish i conn out (s.allFds.erase conn)).log =
      handledConns s.log ++ [s.peer conn] := by
    show handledConns (s.log ++ _) = _
    rw [handledConns_append]
    simp [handledConns]
  constructor
  · intro id hid
    rw [hconns, List.mem_append, Waiting, hheld]
    rcases h.handled_or_waiting id hid with hhandled | ⟨fd, hfd, hpeer⟩
    · exact .inl (.inl hhandled)
    · by_cases heq : fd = conn
      · subst heq
        exact .inl (.inr (List.mem_singleton.mpr hpeer.symm))
      · exact .inr ⟨fd, Finset.mem_erase.mpr ⟨heq, hfd⟩,
          (Function.update_of_ne heq ..).trans hpeer⟩
  · have hpos := Finset.card_pos.mpr ⟨conn, hmem⟩
    have hcount := h.count
    rw [hconns, hheld, Finset.card_erase_of_mem hmem, List.length_append, List.length_singleton]
    show _ = s.accepted
    omega
  · intro hin
    rcases List.mem_append.mp hin with hin | hin
    · exact h.none_rejected hin
    · exact tooMany_notMem_serve _ _ _ hin

/-- **Rounds keep the account.** -/
theorem accounted_round {w : World} {base : Finset Fd} (hbase : w.sock ∈ base) {s s' : State}
    {env : RoundEnv} (hs : FreshLog base s.log → Inv w s ∧ Accounted s)
    (hround : round w s env = .ok s') : FreshLog base s'.log → Inv w s' ∧ Accounted s' := by
  refine round_invariant (P := fun s => FreshLog base s.log → Inv w s ∧ Accounted s)
    ?_ ?_ ?_ ?_ ?_ hs hround
  · intro s ready h hfresh
    obtain ⟨hinv, haccount⟩ := h hfresh.left
    exact ⟨hinv.record rfl, haccount.record (by simp [NoneHandled]) (by simp [tooMany])⟩
  · intro s msg h hfresh
    obtain ⟨hinv, haccount⟩ := h hfresh.left
    exact ⟨hinv.record rfl, haccount.record (by simp [NoneHandled]) (by simp [tooMany])⟩
  · intro s i fd readFds hlt h _ _ hnone hfresh
    obtain ⟨hinv, haccount⟩ := h hfresh.left
    obtain ⟨hfd, -⟩ := hinv.fresh hbase hfresh
    exact ⟨hinv.track hbase hlt hnone hfresh, haccount.track hlt hnone hfd⟩
  · -- there is no state in which a connection is rejected
    intro s fd h hfull hfresh
    obtain ⟨hinv, -⟩ := h hfresh.left.left
    exact absurd hfull hinv.exists_slot
  · intro s i conn out readFds h _ _ hconn hrun hfresh
    obtain ⟨hinv, haccount⟩ := h hfresh.left
    exact ⟨hinv.finish hconn hrun hfresh, haccount.finish hinv.distinct hconn out⟩

/-- **Runs** keep the accounts. -/
theorem accounted_of_serverLoop {w : World} {base : Finset Fd} (hbase : w.sock ∈ base)
    {rounds : List RoundEnv} {s : State} (hrun : serverLoop w rounds = .ok s)
    (hfresh : FreshLog base s.log) : Inv w s ∧ Accounted s :=
  run_invariant (P := fun s => FreshLog base s.log → Inv w s ∧ Accounted s)
    (fun _ _ _ hm hround => accounted_round hbase hm hround)
    (fun _ => ⟨inv_initial w, accounted_initial w⟩) hrun hfresh

/-- **Accounts.**  In every run that stays defined, every connection that was accepted has been
    handled or waits in a slot, and not both; none is rejected; and the two kinds add up to the
    connections accepted. -/
theorem serverLoop_accounts {w : World} {base : Finset Fd} (hbase : w.sock ∈ base)
    {rounds : List RoundEnv} {s : State} (hrun : serverLoop w rounds = .ok s)
    (hfresh : FreshLog base s.log) :
    (∀ id, id < s.accepted ↔ some id ∈ handledConns s.log ∨ Waiting s id) ∧
      (∀ id, ¬(some id ∈ handledConns s.log ∧ Waiting s id)) ∧
      (handledConns s.log).length + (held s.connections).card = s.accepted ∧ tooMany ∉ s.log := by
  obtain ⟨-, haccount⟩ := accounted_of_serverLoop hbase hrun hfresh
  obtain ⟨-, hledger⟩ := serverLoop_ledger hbase hrun hfresh
  have hwaiting : ∀ id, Waiting s id → id < s.accepted ∧ some id ∉ handledConns s.log := by
    rintro id ⟨fd, hfd, hpeer⟩
    obtain ⟨id', hpeer', hlt, hnot, -⟩ := hledger.waiting fd hfd
    obtain rfl : id' = id := Option.some.inj (hpeer'.symm.trans hpeer)
    exact ⟨hlt, hnot⟩
  refine ⟨fun id => ⟨haccount.handled_or_waiting id, ?_⟩, ?_, haccount.count,
    haccount.none_rejected⟩
  · rintro (hhandled | hwait)
    · exact hledger.lt_accepted id hhandled
    · exact (hwaiting id hwait).1
  · rintro id ⟨hhandled, hwait⟩
    exact (hwaiting id hwait).2 hhandled

/-- One connection has been handled, and one waits. -/
theorem serverLoop_accounts_smallWorld :
    ∃ s, serverLoop smallWorld [⟨some {3}, some 4⟩, ⟨some {3, 4}, some 5⟩] = .ok s ∧
      (handledConns s.log).length + (held s.connections).card = s.accepted ∧ tooMany ∉ s.log := by
  obtain ⟨s, hrun, hfresh⟩ := smallWorld_run
  obtain ⟨-, -, hcount, hnone⟩ :=
    serverLoop_accounts (Finset.mem_singleton_self 3) hrun hfresh
  exact ⟨s, hrun, hcount, hnone⟩

/-! ### When all that wait are ready -/

/-- A round that reports everything but the listening socket leaves no slot in use. -/
theorem round_drains {w : World} {base : Finset Fd} (hbase : w.sock ∈ base) {s s' : State}
    (hinv : Inv w s) {ready : Finset Fd} {accept : Option Fd} (hsock : w.sock ∉ ready)
    (hready : held s.connections ⊆ ready) (hround : round w s ⟨some ready, accept⟩ = .ok s')
    (hfresh : FreshLog base s'.log) : held s'.connections = ∅ := by
  have hquiet : w.sock ∉ (s.selectReady ready).members := by
    intro hin
    exact hsock (Finset.mem_filter.mp hin).2.1
  have hno : ¬SkipsReady w s ⟨some ready, accept⟩ := by
    rintro ⟨-, ready', hsel, hin, -⟩
    cases hsel
    exact hquiet hin
  have hserved := round_serves hbase hinv hfresh hround hno
  have hsub : held s'.connections ⊆ held s.connections := by
    rcases round_cases hround with ⟨hsel, -⟩ | ⟨ready', hsel, h⟩
    · cases hsel
    · cases hsel
      rcases h with ⟨-, hscan⟩ | ⟨hin, -⟩ | ⟨_, _, hin, -⟩
      · exact (scan_subset (s := s.record _) hinv.distinct hscan).1
      · exact absurd hin hquiet
      · exact absurd hin hquiet
  rw [Finset.eq_empty_iff_forall_notMem]
  intro fd hfd
  -- the descriptor was tracked and reported, and so it is not tracked any more
  have hheld := hsub hfd
  have hall : fd ∈ s.allFds.members := by
    rw [hinv.allFds_eq]
    exact Finset.mem_insert_of_mem hheld
  have hmem : fd ∈ (s.selectReady ready).members :=
    Finset.mem_filter.mpr ⟨hall, hready hheld, Nat.lt_succ_of_le (hinv.le_maxFd fd hall)⟩
  exact (hserved ready rfl fd hheld hmem).1 hfd

/-- What is known behind a run whose last round reports everything that waits. -/
theorem drained_of_serverLoop {w : World} {base : Finset Fd} (hbase : w.sock ∈ base)
    {rounds : List RoundEnv} {ready : Finset Fd} {accept : Option Fd} {s : State}
    (hrun : serverLoop w (rounds ++ [⟨some ready, accept⟩]) = .ok s)
    (hfresh : FreshLog base s.log) (hsock : w.sock ∉ ready)
    (hready : ∀ m, serverLoop w rounds = .ok m → held m.connections ⊆ ready) :
    held s.connections = ∅ ∧ ∀ id < s.accepted, some id ∈ handledConns s.log := by
  obtain ⟨m, s', hm, hround, hend⟩ := run_split hrun
  cases hend
  have hinv := inv_of_serverLoop hbase hm (hfresh.mono (prefix_log_round hround))
  have hempty := round_drains hbase hinv hsock (hready m hm) hround hfresh
  obtain ⟨-, haccount⟩ := accounted_of_serverLoop hbase hrun hfresh
  refine ⟨hempty, fun id hid => ?_⟩
  rcases haccount.handled_or_waiting id hid with hhandled | ⟨fd, hfd, -⟩
  · exact hhandled
  · rw [hempty] at hfd
    exact absurd hfd (Finset.notMem_empty fd)

/-- **Draining.**  In every run whose last `select` reports every connection that waits, and does
    not report the listening socket, each connection that was accepted has been handled exactly
    once, and only the listening socket is left open and watched. -/
theorem serverLoop_drains {w : World} {base : Finset Fd} (hbase : w.sock ∈ base)
    {rounds : List RoundEnv} {ready : Finset Fd} {accept : Option Fd} {s : State}
    (hrun : serverLoop w (rounds ++ [⟨some ready, accept⟩]) = .ok s)
    (hfresh : FreshLog base s.log) (hsock : w.sock ∉ ready)
    (hready : ∀ m, serverLoop w rounds = .ok m → held m.connections ⊆ ready) :
    (handledConns s.log).Perm ((List.range s.accepted).map some) ∧
      (∀ i, s.connections i = none) ∧ s.allFds.members = {w.sock} ∧ openFds s.log = ∅ := by
  obtain ⟨hempty, hhandled⟩ := drained_of_serverLoop hbase hrun hfresh hsock hready
  obtain ⟨hinv, haccount⟩ := accounted_of_serverLoop hbase hrun hfresh
  refine ⟨?_, fun i => ?_, by rw [hinv.allFds_eq, hempty]; rfl, by rw [hinv.open_eq, hempty]⟩
  · have hnodup : ((List.range s.accepted).map some).Nodup :=
      List.nodup_range.map (Option.some_injective ConnId)
    have hsub : (List.range s.accepted).map some ⊆ handledConns s.log := by
      intro conn hconn
      obtain ⟨id, hid, rfl⟩ := List.mem_map.mp hconn
      exact hhandled id (List.mem_range.mp hid)
    have hlength : (handledConns s.log).length ≤ ((List.range s.accepted).map some).length := by
      rw [List.length_map, List.length_range, ← haccount.count]
      exact Nat.le_add_right _ _
    exact ((List.subperm_of_subset hnodup hsub).perm_of_length_le hlength).symm
  · by_contra hsome
    obtain ⟨fd, hfd⟩ := Option.ne_none_iff_exists'.mp hsome
    have hmem : fd ∈ held s.connections := mem_held.mpr ⟨i, hfd⟩
    rw [hempty] at hmem
    exact Finset.notMem_empty fd hmem

/-- The connection that waits behind two rounds is handled in a third. -/
theorem smallWorld_lastRound :
    ∃ s, serverLoop smallWorld
        ([⟨some {3}, some 4⟩, ⟨some {3, 4}, some 5⟩] ++ [⟨some {5}, none⟩]) = .ok s ∧
      FreshLog {3} s.log ∧ s.accepted = 2 ∧
      ∀ m, serverLoop smallWorld [⟨some {3}, some 4⟩, ⟨some {3, 4}, some 5⟩] = .ok m →
        held m.connections ⊆ {5} := by
  have hmap : (serverLoop smallWorld
        ([⟨some {3}, some 4⟩, ⟨some {3, 4}, some 5⟩] ++ [⟨some {5}, none⟩])).map
        (fun s => (fdEvents s.log, s.accepted)) =
      .ok ([.opened 4, .opened 5, .opened 9, .closed 9, .closed 4, .opened 9, .closed 9,
        .closed 5], 2) := by decide +kernel
  have hmap' : (serverLoop smallWorld [⟨some {3}, some 4⟩, ⟨some {3, 4}, some 5⟩]).map
      (fun s => decide (openFds s.log = {5})) = .ok true := by decide +kernel
  obtain ⟨s, hrun, hevents⟩ := exists_of_map_eq_ok hmap
  obtain ⟨m, hm, hopen⟩ := exists_of_map_eq_ok hmap'
  obtain ⟨m₁, hm₁, hfresh₁⟩ := smallWorld_run
  refine ⟨s, hrun, ?_, (Prod.mk.inj hevents).2, fun m' hm' => ?_⟩
  · rw [FreshLog, (Prod.mk.inj hevents).1]
    simp [FreshFrom]
  · obtain rfl : m = m' := Except.ok.inj (hm.symm.trans hm')
    obtain rfl : m = m₁ := Except.ok.inj (hm.symm.trans hm₁)
    rw [← (inv_of_serverLoop (Finset.mem_singleton_self 3) hm hfresh₁).open_eq,
      of_decide_eq_true hopen]

/-- Two connections, both handled in the end. -/
theorem serverLoop_drains_smallWorld :
    ∃ s, serverLoop smallWorld
        ([⟨some {3}, some 4⟩, ⟨some {3, 4}, some 5⟩] ++ [⟨some {5}, none⟩]) = .ok s ∧
      (handledConns s.log).Perm [some 0, some 1] ∧ openFds s.log = ∅ := by
  obtain ⟨s, hrun, hfresh, htwo, hready⟩ := smallWorld_lastRound
  obtain ⟨hperm, -, -, hopen⟩ :=
    serverLoop_drains (Finset.mem_singleton_self 3) hrun hfresh (by decide) hready
  rw [htwo] at hperm
  exact ⟨s, hrun, hperm, hopen⟩

/-! ### The sequential server -/

/-- Nothing is open, and nothing was closed that was not. -/
def Settled (log : List Event) : Prop := openFds log = ∅ ∧ ClosesOpenFrom ∅ (fdEvents log)

theorem Settled.append {log events : List Event} (h : Settled log) (hevents : Settled events) :
    Settled (log ++ events) := by
  constructor
  · rw [openFds_append, h.1]
    exact hevents.1
  · rw [fdEvents_append, closesOpenFrom_append, ← openFds, h.1]
    exact ⟨h.2, hevents.2⟩

/-- From `accept` to `close`. -/
theorem settled_serve {fs : FileSystem} {env : ConnEnv} {out : Outcome}
    (hrun : Server1.handleConnection fs env = .ok out) {base : Finset Fd} (fd : Fd) (id : ConnId)
    (hfresh : FreshLog base (.accepted fd id :: serve .httpServer1 fd (some id) out)) :
    Settled (.accepted fd id :: serve .httpServer1 fd (some id) out) := by
  have hevents : fdEvents (.accepted fd id :: serve .httpServer1 fd (some id) out) =
      .opened fd :: (out.calls.flatMap Call.fdEvents ++ [.closed fd]) := by
    rw [← fdEvents_serve .httpServer1 fd (some id) out]
    rfl
  rw [FreshLog, hevents] at hfresh
  rw [Settled, openFds, hevents]
  rcases fdEvents_handleConnection hrun with hnil | hfile
  · rw [hnil]
    exact ⟨Finset.erase_insert (Finset.notMem_empty fd), Finset.mem_insert_self .., trivial⟩
  · -- the file is opened and closed while the connection is open
    rw [hfile] at hfresh ⊢
    obtain ⟨-, ⟨-, hnew⟩, -⟩ := hfresh
    have herase := Finset.erase_insert hnew
    simp only [List.cons_append, List.nil_append, openFrom, ClosesOpenFrom, herase]
    exact ⟨Finset.erase_insert (Finset.notMem_empty fd), Finset.mem_insert_self ..,
      Finset.mem_insert_self .., trivial⟩

/-- One turn of the loop. -/
theorem turn_settles {fs : FileSystem} {conn : ConnId → ConnEnv} {base : Finset Fd}
    {accept : Option (Fd × ConnId)} {log log' : List Event} (hsettled : Settled log)
    (hturn : Server1.turn fs conn log accept = .ok log') (hfresh : FreshLog base log') :
    Settled log' ∧ handledConns log' = handledConns log ++ (accept.map (some ·.2)).toList := by
  cases accept with
  | none =>
    cases hturn
    have hno : NoneHandled [Event.perror (ascii "http_server1: accept error")] := by
      simp [NoneHandled]
    have hquiet : Settled [.perror (ascii "http_server1: accept error")] := ⟨rfl, trivial⟩
    refine ⟨hsettled.append hquiet, ?_⟩
    rw [hno.handledConns]
    exact (List.append_nil _).symm
  | some a =>
    obtain ⟨fd, id⟩ := a
    unfold Server1.turn at hturn
    dsimp only at hturn
    split at hturn
    · cases hturn
    · rename_i out hrun
      cases hturn
      have hopen := hfresh.right
      rw [hsettled.1] at hopen
      refine ⟨hsettled.append (settled_serve hrun fd id hopen), ?_⟩
      rw [handledConns_append]
      congr 1
      show (served ([.accepted fd id] ++ serve .httpServer1 fd (some id) out)).map Prod.fst = _
      rw [served_append, served_serve]
      rfl

/-- A turn only adds to the log. -/
theorem prefix_log_turn {fs : FileSystem} {conn : ConnId → ConnEnv}
    {accept : Option (Fd × ConnId)} {log log' : List Event}
    (hturn : Server1.turn fs conn log accept = .ok log') : log <+: log' := by
  unfold Server1.turn at hturn
  split at hturn
  · cases hturn
    exact List.prefix_append _ _
  · split at hturn
    · cases hturn
    · cases hturn
      exact List.prefix_append _ _

/-- From a settled log on, turn by turn. -/
theorem run_settles {fs : FileSystem} {conn : ConnId → ConnEnv} {base : Finset Fd}
    {accepts : List (Option (Fd × ConnId))} {log log' : List Event} (hsettled : Settled log)
    (hrun : run (Server1.turn fs conn) log accepts = .ok log') (hfresh : FreshLog base log') :
    Settled log' ∧ handledConns log' =
      handledConns log ++ accepts.flatMap fun a => (a.map (some ·.2)).toList := by
  induction accepts generalizing log with
  | nil =>
    cases hrun
    exact ⟨hsettled, (List.append_nil _).symm⟩
  | cons a accepts ih =>
    obtain ⟨next, hturn, hrest⟩ := run_cons_eq_ok_iff.mp hrun
    have hprefix : next <+: log' :=
      run_invariant (P := (next <+: ·)) (fun _ _ _ hm h => hm.trans (prefix_log_turn h))
        (List.prefix_refl _) hrest
    obtain ⟨hnext, hconns⟩ := turn_settles hsettled hturn (hfresh.mono hprefix)
    obtain ⟨hsettled', hall⟩ := ih hnext hrest
    refine ⟨hsettled', ?_⟩
    rw [hall, hconns, List.flatMap_cons, List.append_assoc]

/-- **Between two connections.**  In every run of `http_server1` that stays defined, every
    descriptor that was opened is closed again before the next `accept`, none is closed that is not
    open, and the connections are handled in the order in which they were accepted. -/
theorem acceptLoop_settles {fs : FileSystem} {conn : ConnId → ConnEnv} {base : Finset Fd}
    {accepts : List (Option (Fd × ConnId))} {log : List Event}
    (hrun : Server1.acceptLoop fs conn accepts = .ok log) (hfresh : FreshLog base log) :
    openFds log = ∅ ∧ ClosesOpenFrom ∅ (fdEvents log) ∧
      handledConns log = accepts.flatMap fun a => (a.map (some ·.2)).toList := by
  have hstart : Settled [] := ⟨rfl, trivial⟩
  obtain ⟨⟨hopen, hcloses⟩, hconns⟩ := run_settles hstart hrun hfresh
  exact ⟨hopen, hcloses, hconns⟩

/-- Two clients of `http_server1`, and an `accept` that fails between them. -/
theorem acceptLoop_settles_smallWorld :
    ∃ log, Server1.acceptLoop smallWorld.fs smallWorld.conn [some (4, 0), none, some (4, 1)] =
        .ok log ∧
      openFds log = ∅ ∧ handledConns log = [some 0, some 1] := by
  have hmap : (Server1.acceptLoop smallWorld.fs smallWorld.conn
        [some (4, 0), none, some (4, 1)]).map fdEvents =
      .ok [.opened 4, .opened 9, .closed 9, .closed 4, .opened 4, .opened 9, .closed 9,
        .closed 4] := by decide +kernel
  obtain ⟨log, hrun, hevents⟩ := exists_of_map_eq_ok hmap
  have hfresh : FreshLog {3} log := by
    rw [FreshLog, hevents]
    simp [FreshFrom]
  obtain ⟨hopen, -, hconns⟩ := acceptLoop_settles hrun hfresh
  exact ⟨log, hrun, hopen, hconns⟩

end SimpleHttp
