import SimpleHttp.Representation

namespace SimpleHttp

open Lib

/-!
# `http_server2` refines `http_server1`

* `AcceptedBefore`, `HandledReady` — a connection that is handled was accepted before the last
  `select`, which has reported it ready.
* `ClosedAfter` — what is handled is closed before anything else is done.
* `Ledger w s` — which connections the open descriptors stand for and which have been handled.
* `serverLoop_refines` — the connections handled are served as `http_server1`'s accept loop
  serves them one after the other.
-/

/-! ### What the log says about a connection -/

/-- The connection `id` was accepted as `fd` before the last `select`, which returned `readFds`. -/
def AcceptedBefore (log : List Event) (readFds : FdSet fdSetSize) (fd : Fd) (id : ConnId) : Prop :=
  ∃ before between, log = before ++ .selected readFds :: between ∧
    (∀ r, .selected r ∉ between) ∧ .accepted fd id ∈ before

/-- A connection is only handled if it was accepted before the last `select`, and that has
    reported it ready; and it is handled as its calls have it. -/
def HandledReady (w : World) (log : List Event) (e : Event) : Prop :=
  ∀ fd conn out, e = .handled fd conn out →
    ∃ id readFds, conn = some id ∧ AcceptedBefore log readFds fd id ∧ fd ∈ readFds.members ∧
      Server2.handleConnection w.fs (w.conn id) = .ok out

/-- What is handled is closed at once; only a message may come before. -/
def ClosedAfter (log : List Event) : Prop :=
  ∀ pre fd conn out post, log = pre ++ .handled fd conn out :: post →
    ∃ msgs rest, post = msgs ++ .closed fd :: rest ∧ ∀ e ∈ msgs, ∃ text, e = .print text

/-- The connections handled, in order. -/
def handledConns (log : List Event) : List (Option ConnId) := (served log).map Prod.fst

@[simp] theorem handledConns_append (a b : List Event) :
    handledConns (a ++ b) = handledConns a ++ handledConns b := by
  simp [handledConns]

/-- Events that are no `select` change nothing. -/
theorem AcceptedBefore.append {log : List Event} {readFds : FdSet fdSetSize} {fd : Fd} {id : ConnId}
    (h : AcceptedBefore log readFds fd id) {events : List Event}
    (hevents : ∀ r, .selected r ∉ events) : AcceptedBefore (log ++ events) readFds fd id := by
  obtain ⟨before, between, rfl, hno, hmem⟩ := h
  refine ⟨before, between ++ events, by simp, fun r hr => ?_, hmem⟩
  rcases List.mem_append.mp hr with hr | hr
  · exact hno r hr
  · exact hevents r hr

theorem ClosedAfter.append {log events : List Event} (h : ClosedAfter log)
    (hevents : ClosedAfter events) : ClosedAfter (log ++ events) := by
  intro pre fd conn out post heq
  rcases List.append_eq_append_iff.mp heq with ⟨pre', rfl, hpost⟩ | ⟨tail, hlog, hpost⟩
  · exact hevents pre' fd conn out post hpost
  · cases tail with
    | nil => exact hevents [] fd conn out post hpost.symm
    | cons e tail =>
      obtain ⟨rfl, rfl⟩ : e = .handled fd conn out ∧ post = tail ++ events := by
        simpa [eq_comm] using hpost
      obtain ⟨msgs, rest, rfl, hmsgs⟩ := h pre fd conn out tail hlog
      exact ⟨msgs, rest ++ events, by simp, hmsgs⟩

/-- To serve is to handle and then to close. -/
theorem closedAfter_serve (srv : Server) (fd : Fd) (conn : Option ConnId) (out : Outcome) :
    ClosedAfter (serve srv fd conn out) := by
  intro pre fd' conn' out' post heq
  have hhead : pre = [] := by
    cases pre with
    | nil => rfl
    | cons e pre =>
      have hmem : Event.handled fd' conn' out' ∈ (serve srv fd conn out).tail := by
        rw [heq]
        simp
      unfold serve at hmem
      split at hmem <;> simp at hmem
  subst hhead
  unfold serve at heq
  obtain ⟨hhandled, rfl⟩ := List.cons.inj heq
  cases hhandled
  refine ⟨_, [], rfl, fun e he => ?_⟩
  split at he
  · exact ⟨_, List.mem_singleton.mp he⟩
  · cases he

/-- Events none of which is the handling of a connection. -/
def NoneHandled (events : List Event) : Prop := ∀ fd conn out, .handled fd conn out ∉ events

/-- Where none is handled, none is served. -/
theorem NoneHandled.served {events : List Event} (h : NoneHandled events) : served events = [] := by
  rw [SimpleHttp.served, List.filterMap_eq_nil_iff]
  intro e he
  cases e with
  | handled fd conn out => exact absurd he (h fd conn out)
  | _ => rfl

/-- Events that handle none leave the handled ones as they are. -/
theorem NoneHandled.handledConns {events : List Event} (h : NoneHandled events)
    (log : List Event) : handledConns (log ++ events) = handledConns log := by
  rw [handledConns_append, SimpleHttp.handledConns, SimpleHttp.handledConns, h.served,
    List.map_nil, List.append_nil]

/-- Events that handle no connection leave none to close. -/
theorem NoneHandled.closedAfter {events : List Event} (h : NoneHandled events) :
    ClosedAfter events := by
  rintro pre fd conn out post rfl
  exact absurd (by simp) (h fd conn out)

/-- What is logged for a connection begins with its handling. -/
theorem serve_eq (srv : Server) (fd : Fd) (conn : Option ConnId) (out : Outcome) :
    ∃ tail, serve srv fd conn out = .handled fd conn out :: tail ∧ NoneHandled tail := by
  refine ⟨_, rfl, fun fd' conn' out' hmem => ?_⟩
  split at hmem <;> simp at hmem

/-- **History.**  What the log says about the connections handled so far. -/
structure History (w : World) (log : List Event) : Prop where
  nodup : (handledConns log).Nodup
  handled_ready : Justified (HandledReady w) log
  closed_after : ClosedAfter log
  served_eq : ∀ entry ∈ served log, ∃ id out, entry = (some id, out.sent, out.ret) ∧
    Server2.handleConnection w.fs (w.conn id) = .ok out

/-- Events that handle none. -/
theorem History.append {w : World} {log events : List Event} (h : History w log)
    (hno : NoneHandled events) : History w (log ++ events) where
  nodup := by
    rw [hno.handledConns]
    exact h.nodup
  handled_ready := justified_append h.handled_ready fun _ he _ fd conn out heq =>
    absurd (heq ▸ he) (hno fd conn out)
  closed_after := h.closed_after.append hno.closedAfter
  served_eq := by
    rw [served_append, hno.served, List.append_nil]
    exact h.served_eq

/-! ### The ledger -/

/-- **Ledger.**  The connections behind the descriptors in the slots, and those handled already. -/
structure Ledger (w : World) (s : State) : Prop where
  /-- A descriptor in a slot stands for a connection accepted as it and not handled yet. -/
  waiting : ∀ fd ∈ held s.connections, ∃ id, s.peer fd = some id ∧ id < s.accepted ∧
    some id ∉ handledConns s.log ∧ .accepted fd id ∈ s.log
  /-- Two descriptors do not stand for the same connection. -/
  inj : ∀ fd ∈ held s.connections, ∀ fd' ∈ held s.connections, s.peer fd = s.peer fd' → fd = fd'
  /-- A connection the last `select` has reported ready was accepted before it. -/
  ready : ∀ readFds, lastSelected s.log = some readFds → ∀ fd ∈ held s.connections,
    fd ∈ readFds.members → ∀ id, s.peer fd = some id → AcceptedBefore s.log readFds fd id
  lt_accepted : ∀ id, some id ∈ handledConns s.log → id < s.accepted
  history : History w s.log

/-- Before the first round. -/
theorem ledger_initial (w : World) : Ledger w (initial w) where
  waiting fd hfd := by simp [held_initial] at hfd
  inj fd hfd := by simp [held_initial] at hfd
  ready readFds hlast := by cases hlast
  lt_accepted id hid := by cases hid
  history := ⟨List.nodup_nil, justified_nil _, fun pre _ _ _ _ h => by simp [initial] at h,
    fun entry hentry => by cases hentry⟩

/-- A successful `select` starts a new round. -/
theorem Ledger.select {w : World} {s : State} (h : Ledger w s) (readFds : FdSet fdSetSize) :
    Ledger w (s.record [.selected readFds]) := by
  have hno : NoneHandled [Event.selected readFds] := by simp [NoneHandled]
  have hconns : handledConns (s.record [.selected readFds]).log = handledConns s.log :=
    hno.handledConns s.log
  refine ⟨?_, h.inj, ?_, ?_, h.history.append hno⟩
  · intro fd hfd
    obtain ⟨id, hpeer, hlt, hid, hacc⟩ := h.waiting fd hfd
    exact ⟨id, hpeer, hlt, hconns ▸ hid, List.mem_append_left _ hacc⟩
  · intro readFds' hlast fd hfd hmem id hpeer
    obtain rfl : readFds = readFds' :=
      Option.some.inj ((lastSelected_selected s.log readFds).symm.trans hlast)
    obtain ⟨id', hpeer', -, -, hacc⟩ := h.waiting fd hfd
    obtain rfl : id' = id := Option.some.inj (hpeer'.symm.trans hpeer)
    exact ⟨s.log, [], rfl, by simp, hacc⟩
  · rw [hconns]
    exact h.lt_accepted

/-- A state whose slots hold fewer connections, behind events that handle and select nothing. -/
theorem Ledger.weaken {w : World} {s s' : State} (h : Ledger w s) {events : List Event}
    (hlog : s'.log = s.log ++ events) (hno : NoneHandled events)
    (hsel : ∀ r, .selected r ∉ events) (hacc : s.accepted ≤ s'.accepted)
    (hheld : held s'.connections ⊆ held s.connections)
    (hpeer : ∀ fd ∈ held s'.connections, s'.peer fd = s.peer fd) : Ledger w s' := by
  have hconns : handledConns s'.log = handledConns s.log := by rw [hlog, hno.handledConns]
  refine ⟨?_, ?_, ?_, ?_, by rw [hlog]; exact h.history.append hno⟩
  · intro fd hfd
    obtain ⟨id, hid, hlt, hnot, hmem⟩ := h.waiting fd (hheld hfd)
    exact ⟨id, (hpeer fd hfd).trans hid, hlt.trans_le hacc, hconns ▸ hnot,
      by rw [hlog]; exact List.mem_append_left _ hmem⟩
  · intro fd hfd fd' hfd' heq
    rw [hpeer fd hfd, hpeer fd' hfd'] at heq
    exact h.inj fd (hheld hfd) fd' (hheld hfd') heq
  · intro readFds hlast fd hfd hmem id hid
    rw [hlog, lastSelected_append hsel] at hlast
    rw [hpeer fd hfd] at hid
    rw [hlog]
    exact (h.ready readFds hlast fd (hheld hfd) hmem id hid).append hsel
  · intro id hid
    rw [hconns] at hid
    exact (h.lt_accepted id hid).trans_le hacc

/-- A message changes nothing. -/
theorem Ledger.perror {w : World} {s : State} (h : Ledger w s) (msg : Bytes) :
    Ledger w (s.record [.perror msg]) :=
  h.weaken rfl (by simp [NoneHandled]) (by simp) le_rfl subset_rfl fun _ _ => rfl

/-- A rejected connection leaves no trace in the slots. -/
theorem Ledger.reject {w : World} {s : State} (h : Ledger w s) {fd : Fd}
    (hfd : fd ∉ held s.connections) : Ledger w ((s.accept fd).reject fd) := by
  have hlog : ((s.accept fd).reject fd).log = s.log ++ [.accepted fd s.accepted,
      .print (ascii "Too many connections, rejecting new connection\n"), .closed fd] := by
    simp [State.reject, State.accept]
  refine h.weaken hlog (by simp [NoneHandled]) (by simp) (Nat.le_succ _) subset_rfl
    fun fd' hfd' => ?_
  have hne : fd' ≠ fd := fun heq => hfd (heq ▸ hfd')
  simp only [State.reject, State.accept, Function.update_of_ne hne]

/-- A new connection is waiting; `select` has not reported its descriptor. -/
theorem Ledger.track {w : World} {s : State} (h : Ledger w s) {i : Fin fdSetSize} {fd : Fd}
    (hlt : fd < fdSetSize) (hnone : s.connections i = none) (hfd : fd ∉ held s.connections)
    (hunready : ∀ readFds, lastSelected s.log = some readFds → fd ∉ readFds.members) :
    Ledger w ((s.accept fd).track i fd (s.allFds.insert fd hlt)) := by
  have hno : NoneHandled [Event.accepted fd s.accepted] := by simp [NoneHandled]
  have hsel : ∀ r, .selected r ∉ [Event.accepted fd s.accepted] := by simp
  have hheld : held ((s.accept fd).track i fd (s.allFds.insert fd hlt)).connections =
      insert fd (held s.connections) := held_fill hnone fd
  have hconns : handledConns ((s.accept fd).track i fd (s.allFds.insert fd hlt)).log =
      handledConns s.log := hno.handledConns s.log
  have hcount : ((s.accept fd).track i fd (s.allFds.insert fd hlt)).accepted = s.accepted + 1 := rfl
  have hself : ((s.accept fd).track i fd (s.allFds.insert fd hlt)).peer fd = some s.accepted :=
    Function.update_self ..
  have hold : ∀ fd' ∈ held s.connections,
      ((s.accept fd).track i fd (s.allFds.insert fd hlt)).peer fd' = s.peer fd' := fun fd' hfd' =>
    Function.update_of_ne (fun heq : fd' = fd => hfd (heq ▸ hfd')) _ _
  -- numbers are given once, so no connection that waits has the new one
  have hne : ∀ fd' ∈ held s.connections, s.peer fd' ≠ some s.accepted := by
    intro fd' hfd' heq
    obtain ⟨id, hid, hlt, -⟩ := h.waiting fd' hfd'
    obtain rfl : id = s.accepted := Option.some.inj (hid.symm.trans heq)
    exact Nat.lt_irrefl _ hlt
  refine ⟨?_, ?_, ?_, ?_, h.history.append hno⟩
  · -- the new connection has a new number, so it has not been handled
    intro fd' hfd'
    rw [hheld] at hfd'
    rw [hconns, hcount]
    rcases Finset.mem_insert.mp hfd' with rfl | hfd'
    · exact ⟨s.accepted, hself, Nat.lt_succ_self _,
        fun hid => Nat.lt_irrefl _ (h.lt_accepted _ hid),
        List.mem_append_right s.log (List.mem_singleton_self _)⟩
    · obtain ⟨id, hid, hid_lt, hnot, hmem⟩ := h.waiting fd' hfd'
      exact ⟨id, (hold fd' hfd').trans hid, hid_lt.trans (Nat.lt_succ_self _), hnot,
        List.mem_append_left _ hmem⟩
  · -- two descriptors with one number: both old, or both the new one
    intro fd₁ hfd₁ fd₂ hfd₂ heq
    rw [hheld] at hfd₁ hfd₂
    rcases Finset.mem_insert.mp hfd₁ with rfl | h₁ <;>
      rcases Finset.mem_insert.mp hfd₂ with rfl | h₂
    · rfl
    · rw [hself, hold fd₂ h₂] at heq
      exact absurd heq.symm (hne fd₂ h₂)
    · rw [hself, hold fd₁ h₁] at heq
      exact absurd heq (hne fd₁ h₁)
    · rw [hold fd₁ h₁, hold fd₂ h₂] at heq
      exact h.inj fd₁ h₁ fd₂ h₂ heq
  · -- the new descriptor has not been selected; `accept` comes behind `select`
    intro readFds hlast fd' hfd' hmem id hid
    have hlast' : lastSelected s.log = some readFds :=
      (lastSelected_append hsel s.log).symm.trans hlast
    rw [hheld] at hfd'
    rcases Finset.mem_insert.mp hfd' with rfl | hfd'
    · exact absurd hmem (hunready readFds hlast')
    · rw [hold fd' hfd'] at hid
      exact (h.ready readFds hlast' fd' hfd' hmem id hid).append hsel
  · intro id hid
    rw [hconns] at hid
    rw [hcount]
    exact (h.lt_accepted id hid).trans (Nat.lt_succ_self _)

/-- **A ready connection is handled.**  It was waiting since before the last `select`, and is not
    waiting any more. -/
theorem Ledger.finish {w : World} {s : State} (h : Ledger w s) (hd : Distinct s.connections)
    {i : Fin fdSetSize} {conn : Fd} {out : Outcome} {readFds : FdSet fdSetSize}
    (hlast : lastSelected s.log = some readFds) (hmem : conn ∈ readFds.members)
    (hconn : s.connections i = some conn)
    (hrun : Server2.handleConnection w.fs (connEnv w s conn) = .ok out) :
    Ledger w (s.finish i conn out (s.allFds.erase conn)) := by
  have hheld : held (s.finish i conn out (s.allFds.erase conn)).connections =
      (held s.connections).erase conn := held_free hd hconn
  have hconn_held : conn ∈ held s.connections := mem_held.mpr ⟨i, hconn⟩
  obtain ⟨id, hid, hid_lt, hnot, -⟩ := h.waiting conn hconn_held
  rw [connEnv, hid] at hrun
  have hsel := selected_notMem_serve .httpServer2 conn (s.peer conn) out
  have hconns : handledConns (s.finish i conn out (s.allFds.erase conn)).log =
      handledConns s.log ++ [some id] := by
    show handledConns (s.log ++ _) = _
    rw [handledConns_append, hid]
    simp [handledConns]
  have hold : ∀ fd ∈ (held s.connections).erase conn,
      (s.finish i conn out (s.allFds.erase conn)).peer fd = s.peer fd := fun fd hfd =>
    Function.update_of_ne (Finset.ne_of_mem_erase hfd) _ _
  refine ⟨?_, ?_, ?_, ?_, ?_, ?_, ?_, ?_⟩
  · -- the others still wait: the numbers differ as the descriptors do
    intro fd hfd
    rw [hheld] at hfd
    have hfd' := Finset.mem_of_mem_erase hfd
    obtain ⟨id', hid', hlt', hnot', hacc'⟩ := h.waiting fd hfd'
    refine ⟨id', (hold fd hfd).trans hid', hlt', ?_, List.mem_append_left _ hacc'⟩
    rw [hconns, List.mem_append, not_or, List.mem_singleton]
    refine ⟨hnot', fun heq => Finset.ne_of_mem_erase hfd ?_⟩
    exact h.inj fd hfd' conn hconn_held (by rw [hid', hid, heq])
  · intro fd₁ h₁ fd₂ h₂ heq
    rw [hheld] at h₁ h₂
    rw [hold fd₁ h₁, hold fd₂ h₂] at heq
    exact h.inj fd₁ (Finset.mem_of_mem_erase h₁) fd₂ (Finset.mem_of_mem_erase h₂) heq
  · intro readFds' hlast' fd hfd hfd_mem id' hid'
    rw [hheld] at hfd
    rw [hold fd hfd] at hid'
    exact (h.ready readFds' ((lastSelected_append hsel s.log).symm.trans hlast') fd
      (Finset.mem_of_mem_erase hfd) hfd_mem id' hid').append hsel
  · intro id' hid'
    rw [hconns, List.mem_append, List.mem_singleton] at hid'
    rcases hid' with hid' | hid'
    · exact h.lt_accepted id' hid'
    · rw [Option.some.inj hid']
      exact hid_lt
  · -- the connection was waiting, so it is not among those handled before
    rw [hconns, List.nodup_append]
    refine ⟨h.history.nodup, List.nodup_singleton _, fun a ha b hb heq => ?_⟩
    rw [List.mem_singleton.mp hb] at heq
    exact hnot (heq ▸ ha)
  · -- the one new entry that has to be justified is the first of those that `serve` adds
    obtain ⟨tail, hserve, hno⟩ := serve_eq .httpServer2 conn (s.peer conn) out
    have hready : HandledReady w s.log (.handled conn (s.peer conn) out) := by
      rintro fd c o ⟨⟩
      exact ⟨id, readFds, hid, h.ready readFds hlast conn hconn_held hmem id hid, hmem, hrun⟩
    show Justified (HandledReady w) (s.log ++ _)
    rw [hserve, ← List.singleton_append, ← List.append_assoc]
    exact justified_append (justified_concat h.history.handled_ready hready)
      fun e he _ fd c o heq => absurd (heq ▸ he) (hno fd c o)
  · exact h.history.closed_after.append (closedAfter_serve _ _ _ _)
  · -- what was sent to the others is as before
    intro entry hentry
    change entry ∈ served (s.log ++ _) at hentry
    rw [served_append, served_serve, hid] at hentry
    rcases List.mem_append.mp hentry with hentry | hentry
    · exact h.history.served_eq entry hentry
    · exact ⟨id, out, List.mem_singleton.mp hentry, hrun⟩

/-- **Rounds keep the ledger.** -/
theorem ledger_round {w : World} {base : Finset Fd} (hbase : w.sock ∈ base) {s s' : State}
    {env : RoundEnv} (hs : FreshLog base s.log → Inv w s ∧ Ledger w s)
    (hround : round w s env = .ok s') : FreshLog base s'.log → Inv w s' ∧ Ledger w s' := by
  refine round_invariant (P := fun s => FreshLog base s.log → Inv w s ∧ Ledger w s)
    ?_ ?_ ?_ ?_ ?_ hs hround
  · intro s ready h hfresh
    obtain ⟨hinv, hledger⟩ := h hfresh.left
    exact ⟨hinv.record rfl, hledger.select _⟩
  · intro s msg h hfresh
    obtain ⟨hinv, hledger⟩ := h hfresh.left
    exact ⟨hinv.record rfl, hledger.perror msg⟩
  · intro s i fd readFds hlt h hlast hsub hnone hfresh
    obtain ⟨hinv, hledger⟩ := h hfresh.left
    obtain ⟨hfd, hsock⟩ := hinv.fresh hbase hfresh
    refine ⟨hinv.track hbase hlt hnone hfresh, hledger.track hlt hnone hfd fun r hr hmem => ?_⟩
    -- `read_fds` was copied before the descriptor was opened
    obtain rfl : readFds = r := Option.some.inj (hlast.symm.trans hr)
    have hall := hsub hmem
    rw [hinv.allFds_eq, Finset.mem_insert] at hall
    rcases hall with heq | hheld
    · exact hsock heq
    · exact hfd hheld
  · intro s fd h _ hfresh
    obtain ⟨hinv, hledger⟩ := h hfresh.left.left
    exact ⟨hinv.reject hbase hfresh, hledger.reject (hinv.fresh hbase hfresh.left).1⟩
  · intro s i conn out readFds h hlast hmem hconn hrun hfresh
    obtain ⟨hinv, hledger⟩ := h hfresh.left
    exact ⟨hinv.finish hconn hrun hfresh, hledger.finish hinv.distinct hlast hmem hconn hrun⟩

/-- **Runs** keep the ledger. -/
theorem serverLoop_ledger {w : World} {base : Finset Fd} (hbase : w.sock ∈ base)
    {rounds : List RoundEnv} {s : State} (hrun : serverLoop w rounds = .ok s)
    (hfresh : FreshLog base s.log) : Inv w s ∧ Ledger w s :=
  run_invariant (P := fun s => FreshLog base s.log → Inv w s ∧ Ledger w s)
    (fun _ _ _ hm hround => ledger_round hbase hm hround)
    (fun _ => ⟨inv_initial w, ledger_initial w⟩) hrun hfresh

/-! ### The sequential server -/

/-- `http_server1` serves connections in the order in which it accepts them. -/
theorem acceptLoop_serves {fs : FileSystem} {conn : ConnId → ConnEnv}
    {entries : List (Option ConnId × Bytes × Int)}
    (hentries : ∀ entry ∈ entries, ∃ id out, entry = (some id, out.sent, out.ret) ∧
      Server2.handleConnection fs (conn id) = .ok out)
    {accepts : List (Fd × ConnId)}
    (haccepts : accepts.map (fun a => some a.2) = entries.map Prod.fst) (log : List Event) :
    ∃ log', run (Server1.turn fs conn) log (accepts.map some) = .ok log' ∧
      served log' = served log ++ entries := by
  -- each connection behaves to the other server as it did to this one
  induction accepts generalizing entries log with
  | nil =>
    obtain rfl : entries = [] := List.map_eq_nil_iff.mp haccepts.symm
    exact ⟨log, rfl, by simp⟩
  | cons a accepts ih =>
    obtain ⟨fd, id⟩ := a
    cases entries with
    | nil => cases haccepts
    | cons entry entries =>
      obtain ⟨id', out, rfl, hrun⟩ := hentries entry List.mem_cons_self
      obtain ⟨hid, htail⟩ := List.cons.inj haccepts
      obtain rfl : id = id' := Option.some.inj hid
      obtain ⟨out₁, hrun₁, hsent, hret⟩ := handleConnection_copies .httpServer2 .httpServer1 hrun
      have hturn : Server1.turn fs conn log (some (fd, id)) =
          .ok (log ++ .accepted fd id :: serve .httpServer1 fd (some id) out₁) := by
        simp only [Server1.turn, Server1.handleConnection, hrun₁]
      obtain ⟨log', hloop, hserved⟩ := ih (fun e he => hentries e (List.mem_cons_of_mem _ he)) htail
        (log ++ .accepted fd id :: serve .httpServer1 fd (some id) out₁)
      refine ⟨log', by rw [List.map_cons, run_cons_of_ok hturn, hloop], ?_⟩
      have hstep : served (.accepted fd id :: serve .httpServer1 fd (some id) out₁) =
          [(some id, out.sent, out.ret)] := by
        rw [← hsent, ← hret, ← served_serve .httpServer1 fd]
        rfl
      rw [hserved, served_append, hstep, List.append_assoc, List.singleton_append]

/-- **`http_server2` refines `http_server1`.**  In every run
    (a) a connection that is handled was accepted before the last `select`, which has reported it;
    (b) no connection is handled twice, and each is closed as soon as it has been handled;
    (c) the accept loop of `http_server1`, given the connections handled in that order, sends the
        same bytes on each and has the same outcomes. -/
theorem serverLoop_refines {w : World} {base : Finset Fd} (hbase : w.sock ∈ base)
    {rounds : List RoundEnv} {s : State} (hrun : serverLoop w rounds = .ok s)
    (hfresh : FreshLog base s.log) :
    Justified (HandledReady w) s.log ∧ (handledConns s.log).Nodup ∧ ClosedAfter s.log ∧
      ∀ accepts : List (Fd × ConnId), accepts.map (fun a => some a.2) = handledConns s.log →
        ∃ log, Server1.acceptLoop w.fs w.conn (accepts.map some) = .ok log ∧
          served log = served s.log := by
  obtain ⟨-, hledger⟩ := serverLoop_ledger hbase hrun hfresh
  refine ⟨hledger.history.handled_ready, hledger.history.nodup, hledger.history.closed_after, ?_⟩
  intro accepts haccepts
  obtain ⟨log, hloop, hserved⟩ := acceptLoop_serves hledger.history.served_eq haccepts []
  exact ⟨log, hloop, hserved⟩

/-- In `smallWorld`, the connection accepted as 4 is handled while another is accepted as 5. -/
theorem serverLoop_refines_smallWorld :
    ∃ s, serverLoop smallWorld [⟨some {3}, some 4⟩, ⟨some {3, 4}, some 5⟩] = .ok s ∧
      Justified (HandledReady smallWorld) s.log ∧ (handledConns s.log).Nodup ∧
      ClosedAfter s.log ∧
      ∀ accepts : List (Fd × ConnId), accepts.map (fun a => some a.2) = handledConns s.log →
        ∃ log, Server1.acceptLoop smallWorld.fs smallWorld.conn (accepts.map some) = .ok log ∧
          served log = served s.log := by
  obtain ⟨s, hrun, hfresh⟩ := smallWorld_run
  exact ⟨s, hrun, serverLoop_refines (Finset.mem_singleton_self 3) hrun hfresh⟩

end SimpleHttp
