import Mathlib.Order.Interval.Finset.Nat
import SimpleHttp.Readiness

namespace SimpleHttp

open Lib

/-!
# Descriptors from `FD_SETSIZE` on

The only guard of `http_server2` counts free slots; the descriptor that `accept` returns goes
unchecked into `FD_SET`.

* `round_fdOutOfRange` — the only macro call that can be out of range is that `FD_SET`.
* `le_lowestFree_inUse_iff` — when the lowest free descriptor is out of range: four descriptors are
  never free, so it is with 1020 connections tracked, and slots left.
* `serverLoop_inRange_iff` — a run stays in range exactly if nothing is accepted then.
-/

/-- In this round `accept` is called and returns `fd`. -/
def Accepts (w : World) (s : State) (env : RoundEnv) (fd : Fd) : Prop :=
  env.accept = some fd ∧
    ∃ ready, env.select = some ready ∧ w.sock ∈ (s.selectReady ready).members

/-- The descriptors open from the start. -/
def startFds (w : World) : Finset Fd := {0, 1, 2, w.sock}

/-- `accept` returns the lowest descriptor that is not in use. -/
def AcceptsLowest (w : World) (s : State) (env : RoundEnv) : Prop :=
  ∀ fd, Accepts w s env fd → fd = lowestFree (startFds w ∪ openFds s.log)

/-- The invariant keeps the slots in range. -/
theorem Inv.inRange {w : World} {s : State} (h : Inv w s) : InRange s := by
  intro i fd hi
  apply s.allFds.lt fd
  rw [h.allFds_eq]
  exact Finset.mem_insert_of_mem (mem_held.mpr ⟨i, hi⟩)

/-! ### Where a round can go out of range -/

/-- All that can go wrong in `handle_connection` is a token. -/
theorem handleConnection_error {srv : Server} {fs : FileSystem} {env : ConnEnv} {u : Undefined}
    (h : handleConnection srv fs env = .error u) : u = .tokenOverflow := by
  unfold handleConnection at h
  split at h
  · cases h
  · split at h
    · rename_i hparse
      cases h
      unfold parseRequest at hparse
      split at hparse
      · split at hparse <;> cases hparse
        rfl
      · split at hparse <;> cases hparse
        rfl
    · cases h
    · cases h

/-- A slot's turn leaves the slots in range. -/
theorem scanSlot_inRange {w : World} {readFds : FdSet fdSetSize} {s s' : State}
    {i : Fin fdSetSize} (hs : InRange s) (h : scanSlot w readFds s i = .ok s') : InRange s' := by
  rcases scanSlot_cases h with ⟨rfl, -⟩ | ⟨conn, out, -, -, -, rfl⟩
  · exact hs
  · exact hs.finish i conn out _

/-- All that can go wrong in it is a token. -/
theorem scanSlot_error {w : World} {readFds : FdSet fdSetSize} {s : State} {i : Fin fdSetSize}
    {u : Undefined} (hs : InRange s) (h : scanSlot w readFds s i = .error u) :
    u = .tokenOverflow := by
  unfold scanSlot at h
  split at h
  · cases h
  · rename_i conn hconn
    have hlt := hs i conn hconn
    simp only [fdIsSet, if_pos hlt, fdClr] at h
    split at h
    · rename_i heq
      cases heq
    · cases h
    · split at h
      · rename_i hrun
        cases h
        exact handleConnection_error hrun
      · cases h

/-- With the slots in range, the scan does not leave it. -/
theorem scan_error {w : World} {readFds : FdSet fdSetSize} {s : State} {u : Undefined}
    (hs : InRange s) (h : scan w readFds s = .error u) : u = .tokenOverflow := by
  obtain ⟨pre, i, post, m, -, hpre, hstep⟩ := run_eq_error_iff.mp h
  exact scanSlot_error (run_invariant (P := InRange) (fun _ _ _ hm hok => scanSlot_inRange hm hok)
    hs hpre) hstep

/-- **A round out of range.**  It is the `FD_SET` of a new connection, for which there is a slot. -/
theorem round_fdOutOfRange {w : World} {s : State} (hs : InRange s) {env : RoundEnv} {fd : Fd}
    (h : round w s env = .error (.fdOutOfRange fd)) : Accepts w s env fd ∧ fdSetSize ≤ fd := by
  have hscan : ∀ r s₁, InRange s₁ → scan w r s₁ ≠ .error (.fdOutOfRange fd) := fun r s₁ hs₁ he => by
    cases scan_error hs₁ he
  cases hsel : env.select with
  | none => simp only [round, hsel] at h; cases h
  | some ready =>
    simp only [round, hsel, fdIsSet_sock] at h
    by_cases hsock : w.sock ∈ (s.selectReady ready).members
    · simp only [hsock, decide_true] at h
      cases hacc : env.accept with
      | none => rw [hacc] at h; cases h
      | some newConn =>
        simp only [hacc] at h
        cases hslot : firstEmpty s.connections with
        | none =>
          rw [addConnection_of_full (s := (s.record _).accept newConn) hslot] at h
          exact absurd h (hscan _ _ hs)
        | some i =>
          by_cases hlt : newConn < fdSetSize
          · obtain ⟨s₁, hadd, hs₁⟩ := addConnection_total
              (s := (s.record [.selected (s.selectReady ready)]).accept newConn) hs hlt
            rw [hadd] at h
            exact absurd h (hscan _ s₁ hs₁)
          · rw [addConnection_of_not_lt (s := (s.record _).accept newConn) hslot hlt] at h
            cases h
            exact ⟨⟨hacc, ready, hsel, hsock⟩, Nat.le_of_not_lt hlt⟩
    · simp only [hsock, decide_false] at h
      exact absurd h (hscan _ _ hs)

/-- The round that accepts a descriptor out of range. -/
theorem round_of_accepts_out_of_range {w : World} {s : State} {env : RoundEnv} {fd : Fd}
    (hacc : Accepts w s env fd) (hge : fdSetSize ≤ fd) {i : Fin fdSetSize}
    (hslot : firstEmpty s.connections = some i) :
    round w s env = .error (.fdOutOfRange fd) := by
  obtain ⟨haccept, ready, hsel, hsock⟩ := hacc
  simp only [round, hsel, fdIsSet_sock, hsock, decide_true, haccept]
  rw [addConnection_of_not_lt (s := (s.record _).accept fd) hslot (Nat.not_lt.mpr hge)]

/-! ### When the lowest free descriptor is out of range -/

/-- Standard input, output and error, and the listening socket. -/
theorem card_startFds {w : World} (hsock : 2 < w.sock) : (startFds w).card = 4 := by
  have hfour : ∀ n : ℕ, 2 < n → ({0, 1, 2, n} : Finset ℕ).card = 4 := by
    intro n hn
    rw [Finset.card_insert_of_notMem, Finset.card_insert_of_notMem, Finset.card_insert_of_notMem,
      Finset.card_singleton] <;> simp <;> omega
  exact hfour w.sock hsock

/-- **Counting.**  The descriptors in use are those open from the start and those in the slots, so
    the lowest free one is out of range with `FD_SETSIZE - 4` connections tracked. -/
theorem le_lowestFree_inUse_iff {w : World} {s : State} (hinv : Inv w s) (hsock : 2 < w.sock)
    (hfresh : FreshLog (startFds w) s.log) :
    fdSetSize ≤ lowestFree (startFds w ∪ openFds s.log) ↔
      (held s.connections).card = fdSetSize - 4 := by
  have hdisj : Disjoint (startFds w) (held s.connections) := by
    rw [← hinv.open_eq]
    exact disjoint_openFrom hfresh (Finset.disjoint_empty_right _)
  have hlt : ∀ fd ∈ startFds w ∪ held s.connections, fd < fdSetSize := by
    intro fd hfd
    rcases Finset.mem_union.mp hfd with hfd | hfd
    · simp only [startFds, Finset.mem_insert, Finset.mem_singleton] at hfd
      rcases hfd with rfl | rfl | rfl | rfl
      · decide
      · decide
      · decide
      · exact w.sock_lt
    · obtain ⟨i, hi⟩ := mem_held.mp hfd
      exact hinv.inRange i fd hi
  have hsize : 4 ≤ fdSetSize := by decide
  rw [hinv.open_eq, le_lowestFree_iff hlt, Finset.card_union_of_disjoint hdisj, card_startFds hsock]
  omega

/-- There is a slot for a connection that is out of range. -/
theorem exists_slot_of_card {w : World} {s : State} (hinv : Inv w s)
    (hcard : (held s.connections).card = fdSetSize - 4) :
    ∃ i, firstEmpty s.connections = some i := by
  rw [← Option.isSome_iff_exists, ← Option.ne_none_iff_isSome]
  intro hfull
  rw [card_held_of_full hinv.distinct hfull] at hcard
  exact absurd hcard (by decide)

/-- **When the `fd_set` is protected.**  With `accept` returning the lowest free descriptor, no
    descriptor from `FD_SETSIZE` on reaches an `fd_set` macro exactly if no connection is accepted
    while `FD_SETSIZE - 4` are tracked. -/
theorem serverLoop_inRange_iff {w : World} (hsock : 2 < w.sock) {rounds : List RoundEnv}
    (hlowest : AlongRun (round w) (initial w) rounds (AcceptsLowest w))
    (hfresh : ∀ pre s, pre <+: rounds → serverLoop w pre = .ok s → FreshLog (startFds w) s.log) :
    (∀ fd, serverLoop w rounds ≠ .error (.fdOutOfRange fd)) ↔
      AlongRun (round w) (initial w) rounds (fun m env =>
        ∀ fd, Accepts w m env fd → (held m.connections).card ≠ fdSetSize - 4) := by
  have hbase : w.sock ∈ startFds w := by simp [startFds]
  have hinv : ∀ pre s, pre <+: rounds → serverLoop w pre = .ok s → Inv w s :=
    fun pre s hpre hrun => inv_of_serverLoop hbase hrun (hfresh pre s hpre hrun)
  constructor
  · intro hrange pre env post m heq hm fd hacc hcard
    have hpre : pre <+: rounds := heq ▸ List.prefix_append _ _
    have hm_inv := hinv pre m hpre hm
    -- there is a slot, but the lowest free descriptor is `FD_SETSIZE`
    obtain ⟨i, hslot⟩ := exists_slot_of_card hm_inv hcard
    have hge : fdSetSize ≤ fd := by
      rw [hlowest pre env post m heq hm fd hacc]
      exact (le_lowestFree_inUse_iff hm_inv hsock (hfresh pre m hpre hm)).mpr hcard
    exact hrange fd (run_eq_error_iff.mpr
      ⟨pre, env, post, m, heq, hm, round_of_accepts_out_of_range hacc hge hslot⟩)
  · intro hno fd herror
    obtain ⟨pre, env, post, m, heq, hm, hround⟩ := run_eq_error_iff.mp herror
    have hpre : pre <+: rounds := heq ▸ List.prefix_append _ _
    have hm_inv := hinv pre m hpre hm
    -- the macro call out of range is that for a new connection
    obtain ⟨hacc, hge⟩ := round_fdOutOfRange hm_inv.inRange hround
    apply hno pre env post m heq hm fd hacc
    rw [hlowest pre env post m heq hm fd hacc] at hge
    exact (le_lowestFree_inUse_iff hm_inv hsock (hfresh pre m hpre hm)).mp hge

/-! ### Many clients -/

/-- Clients that connect one after the other and send nothing. -/
def manyClients (n : Nat) : List RoundEnv := (List.range n).map fun k => ⟨some {3}, some (4 + k)⟩

/-- One client more. -/
theorem manyClients_succ (n : Nat) :
    manyClients (n + 1) = manyClients n ++ [⟨some {3}, some (4 + n)⟩] := by
  simp [manyClients, List.range_succ]

theorem prefix_manyClients {n : Nat} {pre : List RoundEnv} (h : pre <+: manyClients n) :
    ∃ k ≤ n, pre = manyClients k := by
  refine ⟨min pre.length n, Nat.min_le_right _ _, ?_⟩
  rw [List.prefix_iff_eq_take.mp h, manyClients, ← List.map_take, List.take_range, List.length_map,
    List.length_range, manyClients, Nat.min_assoc, Nat.min_self]

/-- Each round of such a run accepts the next descriptor. -/
theorem split_manyClients {n : Nat} {pre post : List RoundEnv} {env : RoundEnv}
    (h : manyClients n = pre ++ env :: post) :
    ∃ k < n, pre = manyClients k ∧ env = ⟨some {3}, some (4 + k)⟩ := by
  have hpre : pre ++ [env] <+: manyClients n := ⟨post, by rw [h]; simp⟩
  obtain ⟨k, hk, heq⟩ := prefix_manyClients hpre
  cases k with
  | zero => simp [manyClients] at heq
  | succ k =>
    rw [manyClients_succ] at heq
    obtain ⟨hp, he⟩ := List.append_inj' heq rfl
    exact ⟨k, hk, hp, by simpa using he⟩

/-- A scan does nothing if no connection is ready. -/
theorem scan_idle {w : World} {readFds : FdSet fdSetSize} {s : State} (hs : InRange s)
    (hidle : ∀ fd ∈ held s.connections, fd ∉ readFds.members) : scan w readFds s = .ok s := by
  have hstep : ∀ m, ∀ i ∈ List.finRange fdSetSize, s = m →
      ∃ m', scanSlot w readFds m i = .ok m' ∧ s = m' := by
    rintro m i - rfl
    refine ⟨s, ?_, rfl⟩
    cases hconn : s.connections i with
    | none => simp only [scanSlot, hconn]
    | some conn =>
      have hmem := hidle conn (mem_held.mpr ⟨i, hconn⟩)
      simp only [scanSlot, hconn, fdIsSet, if_pos (hs i conn hconn), hmem, decide_false]
  obtain ⟨t, hrun, rfl⟩ := run_total hstep rfl
  exact hrun

/-- `select` can always report the listening socket. -/
theorem sock_mem_selectReady {w : World} {s : State} (hinv : Inv w s) {ready : Finset Fd}
    (h : w.sock ∈ ready) : w.sock ∈ (s.selectReady ready).members := by
  have hall : w.sock ∈ s.allFds.members := by
    rw [hinv.allFds_eq]
    exact Finset.mem_insert_self _ _
  exact Finset.mem_filter.mpr ⟨hall, h, Nat.lt_succ_of_le (hinv.le_maxFd _ hall)⟩

/-- A new client is tracked if its descriptor is in range and there is a slot. -/
theorem round_tracks {w : World} {s : State} {fd : Fd} (hinv : Inv w s)
    (hfresh : FreshLog (startFds w) s.log) (hlt : fd < fdSetSize)
    (hstart : fd ∉ startFds w) (hnew : fd ∉ held s.connections)
    (hcard : (held s.connections).card < fdSetSize) :
    ∃ s', round w s ⟨some {w.sock}, some fd⟩ = .ok s' ∧ Inv w s' ∧
      FreshLog (startFds w) s'.log ∧ held s'.connections = insert fd (held s.connections) := by
  have hsock := sock_mem_selectReady hinv (Finset.mem_singleton_self w.sock)
  have honly : ∀ fd' ∈ (s.selectReady {w.sock}).members, fd' = w.sock := fun fd' hfd' =>
    Finset.mem_singleton.mp (Finset.mem_filter.mp hfd').2.1
  obtain ⟨i, hslot⟩ : ∃ i, firstEmpty s.connections = some i := by
    rw [← Option.isSome_iff_exists, ← Option.ne_none_iff_isSome]
    intro hfull
    rw [card_held_of_full hinv.distinct hfull] at hcard
    exact Nat.lt_irrefl _ hcard
  have hinv₀ : Inv w (s.record [.selected (s.selectReady {w.sock})]) := hinv.record rfl
  have hfresh₁ : FreshLog (startFds w)
      ((s.record [.selected (s.selectReady {w.sock})]).log ++ [.accepted fd s.accepted]) := by
    rw [FreshLog, fdEvents_append, freshFrom_append]
    refine ⟨by rw [State.record, fdEvents_append, freshFrom_append]; exact ⟨hfresh, trivial⟩, ?_⟩
    rw [← openFds, hinv₀.open_eq]
    exact ⟨⟨hstart, hnew⟩, trivial⟩
  have hbase : w.sock ∈ startFds w := by simp [startFds]
  have hinv₁ := hinv₀.track hbase hlt (firstEmpty_eq_some hslot) hfresh₁
  refine ⟨_, ?_, hinv₁, hfresh₁, held_fill (firstEmpty_eq_some hslot) fd⟩
  simp only [round, fdIsSet_sock, hsock, decide_true]
  rw [addConnection_of_slot (s := (s.record _).accept fd) hslot hlt]
  refine scan_idle hinv₁.inRange fun fd' hfd' hmem => ?_
  exact hinv₁.sock_notMem (honly fd' hmem ▸ hfd')

/-- As long as their descriptors are in range, every client is tracked. -/
theorem manyClients_run (n : Nat) (hn : n ≤ fdSetSize - 4) :
    ∃ s, serverLoop smallWorld (manyClients n) = .ok s ∧ Inv smallWorld s ∧
      FreshLog (startFds smallWorld) s.log ∧ held s.connections = Finset.Ico 4 (4 + n) := by
  induction n with
  | zero => exact ⟨initial smallWorld, rfl, inv_initial _, trivial, by simp [held_initial]⟩
  | succ n ih =>
    obtain ⟨s, hrun, hinv, hfresh, hheld⟩ := ih (by omega)
    have hstart : 4 + n ∉ startFds smallWorld := by
      have : ∀ m : ℕ, 4 + m ∉ ({0, 1, 2, 3} : Finset ℕ) := fun m => by simp; omega
      exact this n
    have hlt : 4 + n < fdSetSize := by omega
    obtain ⟨s', hround, hinv', hfresh', hheld'⟩ := round_tracks hinv hfresh hlt
      hstart (by rw [hheld]; simp) (by rw [hheld, Nat.card_Ico]; omega)
    refine ⟨s', ?_, hinv', hfresh', ?_⟩
    · rw [manyClients_succ]
      exact (run_concat_of_ok hrun _).trans hround
    · rw [hheld', hheld]
      exact (Nat.Ico_succ_right_eq_insert_Ico (by omega)).symm

/-- Their descriptors are the lowest free ones. -/
theorem manyClients_lowest (n : Nat) (hn : n ≤ fdSetSize - 3) :
    AlongRun (round smallWorld) (initial smallWorld) (manyClients n)
      (AcceptsLowest smallWorld) := by
  intro pre env post m heq hm fd hacc
  obtain ⟨k, hk, rfl, rfl⟩ := split_manyClients heq
  obtain ⟨s, hrun, hinv, -, hheld⟩ := manyClients_run k (by omega)
  obtain rfl : m = s := Except.ok.inj (hm.symm.trans hrun)
  obtain rfl : 4 + k = fd := Option.some.inj hacc.1
  have hunion : startFds smallWorld ∪ openFds m.log = Finset.range (4 + k) := by
    rw [hinv.open_eq, hheld]
    ext j
    have : ∀ i : ℕ, i ∈ ({0, 1, 2, 3} : Finset ℕ) ∪ Finset.Ico 4 (4 + k) ↔
        i ∈ Finset.range (4 + k) := by
      intro i
      simp only [Finset.mem_union, Finset.mem_insert, Finset.mem_singleton, Finset.mem_Ico,
        Finset.mem_range]
      omega
    exact this j
  rw [hunion, lowestFree_range]

/-- 1020 clients stay in range. -/
theorem serverLoop_inRange_manyClients :
    AlongRun (round smallWorld) (initial smallWorld) (manyClients 1020)
        (AcceptsLowest smallWorld) ∧
      ∀ fd, serverLoop smallWorld (manyClients 1020) ≠ .error (.fdOutOfRange fd) := by
  have hlowest := manyClients_lowest 1020 (by decide)
  refine ⟨hlowest, (serverLoop_inRange_iff (by decide) hlowest ?_).mpr ?_⟩
  · intro pre s hpre hrun
    obtain ⟨k, hk, rfl⟩ := prefix_manyClients hpre
    obtain ⟨s', hrun', -, hfresh, -⟩ := manyClients_run k hk
    obtain rfl : s = s' := Except.ok.inj (hrun.symm.trans hrun')
    exact hfresh
  · intro pre env post m heq hm fd _ hcard
    obtain ⟨k, hk, rfl, -⟩ := split_manyClients heq
    obtain ⟨s', hrun', -, -, hheld⟩ := manyClients_run k hk.le
    obtain rfl : m = s' := Except.ok.inj (hm.symm.trans hrun')
    rw [hheld, Nat.card_Ico] at hcard
    have hsize : fdSetSize - 4 = 1020 := rfl
    omega

/-- With one more, `FD_SET` is called with the descriptor 1024. -/
theorem serverLoop_out_of_range :
    AlongRun (round smallWorld) (initial smallWorld) (manyClients 1021)
        (AcceptsLowest smallWorld) ∧
      serverLoop smallWorld (manyClients 1021) = .error (.fdOutOfRange 1024) := by
  refine ⟨manyClients_lowest 1021 (by decide), ?_⟩
  obtain ⟨s, hrun, hinv, -, hheld⟩ := manyClients_run 1020 (by decide)
  have hcard : (held s.connections).card = fdSetSize - 4 := by
    rw [hheld, Nat.card_Ico]
    rfl
  obtain ⟨i, hslot⟩ := exists_slot_of_card hinv hcard
  have hacc : Accepts smallWorld s ⟨some {3}, some 1024⟩ 1024 :=
    ⟨rfl, {3}, rfl, sock_mem_selectReady hinv (Finset.mem_singleton_self _)⟩
  rw [show (1021 : Nat) = 1020 + 1 from rfl, manyClients_succ]
  exact (run_concat_of_ok hrun _).trans (round_of_accepts_out_of_range hacc (le_refl _) hslot)

end SimpleHttp
