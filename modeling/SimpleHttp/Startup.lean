import SimpleHttp.Reports

namespace SimpleHttp

open Lib

/-!
# The servers from their arguments on

* `startup` — the arguments, the range check of the port, and the calls up to `listen`.
* `Server1.main`, `Server2.main` — the programs: `startup`, then the loop.
* `Server1.main_cases`, `Server2.main_cases` — a program gives up with a message, or its loop runs.
* `startup_eq_ok_iff` — when a server listens, and on which port.
* `startup_ports` — what the range check lets through.
-/

/-- What the calls of `main` in front of its loop report; an errno text is a failure. -/
structure StartupEnv where
  socket : Except Bytes Fd
  bind : Option Bytes
  listen : Option Bytes

/-- A listening socket, with the port in host order. -/
structure Listening where
  sock : Fd
  port : UInt16
  deriving DecidableEq

/-- The texts of `main` in the two programs. -/
structure StartupTexts where
  usage : Bytes
  badPort (port : Int) : Bytes
  socket : Bytes
  bind : Bytes
  listen : Bytes

/-- The messages of each server, as it has them. -/
def Server.startupTexts : Server → StartupTexts
  | .httpServer1 =>
    { usage := ascii "usage: http_server1 port\n"
      badPort port :=
        ascii "INVALID PORT NUMBER: " ++ decimal port ++ ascii "; can't be < 1500\n"
      socket := ascii "http_server1: socket error"
      bind := ascii "http_server1: bind error"
      listen := ascii "http_server1: listen error" }
  | .httpServer2 =>
    { usage := ascii "usage: http_server2 port\n"
      badPort port := ascii "Requested port(" ++ decimal port ++ ascii ") must be above 1500\n"
      socket := ascii "tcp_server: socket error"
      bind := ascii "tcp_server: bind error"
      listen := ascii "tcp_server: listen error" }

/-- `main` up to its loop. -/
def startup (srv : Server) (argv : List Bytes) (env : StartupEnv) : Except Exit Listening :=
  let texts := srv.startupTexts
  match argv with
  | [_, arg] =>
      let serverPort := atoi arg
      if serverPort < 1500 then .error (die (texts.badPort serverPort))
      else
        match env.socket, env.bind, env.listen with
        | .error errno, _, _ => .error (die (perrorText texts.socket errno))
        | .ok _, some errno, _ => .error (die (perrorText texts.bind errno))
        | .ok _, none, some errno => .error (die (perrorText texts.listen errno))
        -- `htons` takes the last 16 bits of the number
        | .ok sock, none, none => .ok ⟨sock, UInt16.ofInt serverPort⟩
  | _ => .error (die texts.usage)

/-- `main` of `http_server1.c`, over the results of its calls: its exit, or the log of its loop. -/
def Server1.main (argv : List Bytes) (env : StartupEnv) (fs : FileSystem) (conn : ConnId → ConnEnv)
    (accepts : List (Option (Fd × ConnId))) : Except Undefined (Exit ⊕ List Event) :=
  match startup .httpServer1 argv env with
  | .error exit => .ok (.inl exit)
  | .ok _ => (Server1.acceptLoop fs conn accepts).map .inr

/-- `main` of `http_server2.c`.  The listening socket is put into `all_fds`. -/
def Server2.main (argv : List Bytes) (env : StartupEnv) (fs : FileSystem) (conn : ConnId → ConnEnv)
    (rounds : List RoundEnv) : Except Undefined (Exit ⊕ State) :=
  match startup .httpServer2 argv env with
  | .error exit => .ok (.inl exit)
  | .ok listening =>
      if h : listening.sock < fdSetSize then
        (serverLoop ⟨fs, conn, listening.sock, h⟩ rounds).map .inr
      else .error (.fdOutOfRange listening.sock)

/-! ### The programs -/

/-- To give up at the start is to die with a message. -/
theorem startup_error {srv : Server} {argv : List Bytes} {env : StartupEnv} {exit : Exit}
    (h : startup srv argv env = .error exit) : ∃ err, err ≠ [] ∧ exit = die err := by
  unfold startup at h
  split at h
  · dsimp only at h
    split at h
    · cases h
      refine ⟨_, ?_, rfl⟩
      cases srv <;> simp [Server.startupTexts, ascii]
    · split at h <;> cases h
      · exact ⟨_, perrorText_ne_nil _ _, rfl⟩
      · exact ⟨_, perrorText_ne_nil _ _, rfl⟩
      · exact ⟨_, perrorText_ne_nil _ _, rfl⟩
  · cases h
    refine ⟨_, ?_, rfl⟩
    cases srv <;> simp [Server.startupTexts, ascii]

/-- `http_server1` gives up at the start or comes to its loop. -/
theorem Server1.main_cases {argv : List Bytes} {env : StartupEnv} {fs : FileSystem}
    {conn : ConnId → ConnEnv} {accepts : List (Option (Fd × ConnId))} {r : Exit ⊕ List Event}
    (h : Server1.main argv env fs conn accepts = .ok r) :
    (∃ err, err ≠ [] ∧ r = .inl (die err)) ∨
      ∃ log, r = .inr log ∧ Server1.acceptLoop fs conn accepts = .ok log := by
  unfold Server1.main at h
  split at h
  · rename_i exit hstart
    cases h
    obtain ⟨err, herr, rfl⟩ := startup_error hstart
    exact Or.inl ⟨err, herr, rfl⟩
  · obtain ⟨log, hrun, rfl⟩ := exists_of_map_eq_ok h
    exact Or.inr ⟨log, rfl, hrun⟩

/-- `http_server2` gives up at the start or comes to its loop. -/
theorem Server2.main_cases {argv : List Bytes} {env : StartupEnv} {fs : FileSystem}
    {conn : ConnId → ConnEnv} {rounds : List RoundEnv} {r : Exit ⊕ State}
    (h : Server2.main argv env fs conn rounds = .ok r) :
    (∃ err, err ≠ [] ∧ r = .inl (die err)) ∨
      ∃ w s, w.fs = fs ∧ w.conn = conn ∧ r = .inr s ∧ serverLoop w rounds = .ok s := by
  unfold Server2.main at h
  split at h
  · rename_i exit hstart
    cases h
    obtain ⟨err, herr, rfl⟩ := startup_error hstart
    exact Or.inl ⟨err, herr, rfl⟩
  · split at h
    · rename_i listening _ hlt
      obtain ⟨s, hrun, rfl⟩ := exists_of_map_eq_ok h
      exact Or.inr ⟨⟨fs, conn, listening.sock, hlt⟩, s, rfl, rfl, rfl, hrun⟩
    · cases h

/-! ### Ports -/

/-- A server listens if it has one argument, at least 1500, and no call fails. -/
theorem startup_eq_ok_iff {srv : Server} {argv : List Bytes} {env : StartupEnv}
    {listening : Listening} :
    startup srv argv env = .ok listening ↔
      ∃ prog arg, argv = [prog, arg] ∧ 1500 ≤ atoi arg ∧
        env = ⟨.ok listening.sock, none, none⟩ ∧
        listening.port = UInt16.ofInt (atoi arg) := by
  obtain ⟨sock, port⟩ := listening
  constructor
  · intro h
    unfold startup at h
    split at h
    · rename_i prog arg
      dsimp only at h
      split at h
      · cases h
      · rename_i hport
        obtain ⟨socket, bind, listen⟩ := env
        dsimp only at h
        split at h <;> cases h
        exact ⟨prog, arg, rfl, by omega, rfl, rfl⟩
    · cases h
  · rintro ⟨prog, arg, rfl, hport, rfl, rfl⟩
    have hnot : ¬ atoi arg < 1500 := by omega
    simp only [startup, if_neg hnot]

/-- What a server makes of a number. -/
theorem startup_natDecimal (srv : Server) (prog : Bytes) (sock : Fd) {n : Nat} (h : n < 2 ^ 31)
    (port : UInt16) :
    startup srv [prog, natDecimal n] ⟨.ok sock, none, none⟩ = .ok ⟨sock, port⟩ ↔
      1500 ≤ n ∧ port.toNat = n % UInt16.size := by
  have hatoi := atoi_natDecimal h
  have hmod : port = UInt16.ofInt n ↔ port.toNat = n % UInt16.size := by
    have hcast : ((n : Int) % 2 ^ 16).toNat % 2 ^ 16 = n % UInt16.size := by
      show _ = n % 65536
      omega
    rw [← UInt16.toNat_inj, UInt16.ofInt, UInt16.toNat_ofNat', hcast]
  rw [startup_eq_ok_iff, ← hmod]
  constructor
  · rintro ⟨prog', arg, hargv, hge, -, hp⟩
    cases hargv
    rw [hatoi] at hge hp
    exact ⟨by omega, hp⟩
  · rintro ⟨hge, hp⟩
    exact ⟨prog, natDecimal n, rfl, by rw [hatoi]; omega, rfl, by rw [hatoi]; exact hp⟩

/-- **The range check.**  Of the numbers that are ports, a server listens on those from 1500 on; but
    there is no port on which it does not listen for some other number. -/
theorem startup_ports (srv : Server) (prog : Bytes) (sock : Fd) (port : UInt16) :
    ((∃ n < UInt16.size,
        startup srv [prog, natDecimal n] ⟨.ok sock, none, none⟩ = .ok ⟨sock, port⟩) ↔
      1500 ≤ port.toNat) ∧
    ∃ n, UInt16.size ≤ n ∧
      startup srv [prog, natDecimal n] ⟨.ok sock, none, none⟩ = .ok ⟨sock, port⟩ := by
  have hsize : UInt16.size = 65536 := rfl
  have hlt : port.toNat < UInt16.size := port.toNat_lt
  refine ⟨⟨?_, fun hge => ⟨port.toNat, hlt, ?_⟩⟩, UInt16.size + port.toNat, by omega, ?_⟩
  · rintro ⟨n, hn, h⟩
    rw [startup_natDecimal _ _ _ (by omega), Nat.mod_eq_of_lt hn] at h
    omega
  · rw [startup_natDecimal _ _ _ (by omega), Nat.mod_eq_of_lt hlt]
    exact ⟨hge, rfl⟩
  · rw [startup_natDecimal _ _ _ (by omega), Nat.add_mod_left, Nat.mod_eq_of_lt hlt]
    exact ⟨by omega, rfl⟩

end SimpleHttp
