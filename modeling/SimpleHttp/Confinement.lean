import SimpleHttp.Lib.LexicalPath
import SimpleHttp.Reply

namespace SimpleHttp

open Lib

/-!
# What a request can make the server open

* `Confined name` — the file name is relative and never leads out of the directory that it is
  resolved in.
* `handleConnection_confined_iff` — for which paths the name passed to `fopen` is confined: the
  servers only strip one slash and check nothing.
-/

/-- The components of a path. -/
def components (path : Bytes) : List Bytes := path.splitOn 47

/-- `.` and empty components do nothing, `..` goes up, any other component is a name. -/
def stepOf (component : Bytes) : Step Bytes :=
  if component = ascii ".." then .up
  else if component = [] ∨ component = ascii "." then .stay
  else .enter component

/-- A component that is a name. -/
def isOrdinary (component : Bytes) : Bool :=
  component ≠ ascii ".." && component ≠ [] && component ≠ ascii "."

/-- A relative path none of whose prefixes has more `..` components than ordinary ones. -/
structure Confined (name : Bytes) : Prop where
  relative : name.head? ≠ some 47
  inside : ∀ pre, pre <+: components name →
    pre.count (ascii "..") ≤ pre.countP isOrdinary

/-- `..` goes up, and nothing else does. -/
theorem isUp_stepOf (component : Bytes) :
    (stepOf component).isUp = (component == ascii "..") := by
  unfold stepOf
  split
  · simp_all [Step.isUp]
  · split <;> simp_all [Step.isUp]

/-- Ordinary names go down. -/
theorem isEnter_stepOf (component : Bytes) :
    (stepOf component).isEnter = isOrdinary component := by
  unfold stepOf isOrdinary
  split
  · simp_all [Step.isEnter]
  · split
    · rename_i h
      rcases h with rfl | rfl <;> rfl
    · simp_all [Step.isEnter]

/-- The count of `..` and of ordinary components along a path is that of its steps. -/
theorem resolve_components_iff (path : Bytes) :
    (resolve [] ((components path).map stepOf)).isSome ↔
      ∀ pre, pre <+: components path → pre.count (ascii "..") ≤ pre.countP isOrdinary := by
  have hups (pre : List Bytes) :
      (pre.map stepOf).countP Step.isUp = pre.count (ascii "..") := by
    rw [List.countP_map, List.count]
    exact congrArg (List.countP · pre) (funext isUp_stepOf)
  have henters (pre : List Bytes) :
      (pre.map stepOf).countP Step.isEnter = pre.countP isOrdinary := by
    rw [List.countP_map]
    exact congrArg (List.countP · pre) (funext isEnter_stepOf)
  rw [resolve_isSome_iff]
  constructor
  · intro h pre hpre
    have := h (pre.map stepOf) (hpre.map stepOf)
    rwa [hups, henters, List.length_nil, Nat.zero_add] at this
  · intro h pre' hpre'
    obtain ⟨pre, hpre, rfl⟩ := List.prefix_map_iff.mp hpre'
    rw [hups, henters, List.length_nil, Nat.zero_add]
    exact h pre hpre

/-- The slash that is stripped stands for an empty component, which does nothing. -/
theorem resolve_stripSlash (path : Bytes) :
    resolve [] ((components (stripSlash path)).map stepOf) =
      resolve [] ((components path).map stepOf) := by
  unfold stripSlash
  split
  · rename_i rest
    have hsplit : components (47 :: rest) = [] :: components rest := by
      simp [components, List.splitOn_cons_eq_if_modifyHead]
    rw [hsplit]
    simp [stepOf, resolve, ascii]
  · rfl

/-- The name is confined if the path is, but for a second slash in front. -/
theorem confined_stripSlash_iff (path : Bytes) :
    Confined (stripSlash path) ↔
      ¬ [47, 47] <+: path ∧ (resolve [] ((components path).map stepOf)).isSome := by
  rw [← resolve_stripSlash, resolve_components_iff]
  have hhead : (stripSlash path).head? ≠ some 47 ↔ ¬ [47, 47] <+: path := by
    unfold stripSlash
    split
    · rename_i rest
      cases rest <;> simp [eq_comm]
    · rename_i hne
      cases path with
      | nil => simp
      | cons b path =>
        have hb : b ≠ 47 := fun h => hne path (h ▸ rfl)
        simp [hb, hb.symm]
  rw [← hhead]
  exact ⟨fun h => ⟨h.relative, h.inside⟩, fun h => ⟨h.1, h.2⟩⟩

/-- **When the file name is confined.**  For a request that is parsed, exactly if its path does not
    start with two slashes and can be followed from the served directory without leaving it. -/
theorem handleConnection_confined_iff (srv : Server) (fs : FileSystem) {env : ConnEnv}
    {calls : List Call} {buf : Bytes} {req : Request}
    (hread : readLoop srv env.recvs clearBuf 0 = (calls, some buf))
    (hparse : parseRequest buf = .ok (some req)) :
    ∃ out name, handleConnection srv fs env = .ok out ∧ fopened out.calls = [name] ∧
      (Confined name ↔
        ¬ [47, 47] <+: req.path ∧ (resolve [] ((components req.path).map stepOf)).isSome) := by
  have hopen := fopened_readLoop srv env.recvs clearBuf 0
  rw [hread] at hopen
  refine ⟨_, stripSlash req.path, handleConnection_parsed fs hread hparse, ?_,
    confined_stripSlash_iff req.path⟩
  rw [fopened_append, hopen, fopened_respond, List.nil_append,
    cstr_extractFilename (zero_not_mem_path hparse) req.path_lt]

/-- A request that goes up no further than it has gone down. -/
def upAndDownRequest : Chunk := ⟨ascii "GET /a/../b HTTP/1.0\r\n\r\n", by decide, by decide⟩

/-- A path that goes down and up again. -/
theorem handleConnection_confined_upAndDown :
    ∃ out name,
      handleConnection .httpServer1 (fun _ => none) ⟨[.data upAndDownRequest], 5, [], []⟩ = .ok out ∧
      fopened out.calls = [name] ∧ Confined name := by
  obtain ⟨out, name, hrun, hopen, hiff⟩ :=
    @handleConnection_confined_iff .httpServer1 (fun _ => none)
      ⟨[.data upAndDownRequest], 5, [], []⟩ _ _
      ⟨ascii "GET", ascii "/a/../b", ascii "HTTP/1.0", by decide, by decide, by decide⟩ rfl rfl
  exact ⟨out, name, hrun, hopen, hiff.mpr (by decide)⟩

/-- A request for a file above the served directory. -/
def dotDotRequest : Chunk := ⟨ascii "GET ../x HTTP/1.0\r\n\r\n", by decide, by decide⟩

/-- `fopen` is asked for `../x`. -/
theorem handleConnection_not_confined :
    ∃ out, handleConnection .httpServer1 (fun _ => none) ⟨[.data dotDotRequest], 5, [], []⟩ =
        .ok out ∧ fopened out.calls = [ascii "../x"] ∧ ¬ Confined (ascii "../x") := by
  refine ⟨_, rfl, by decide, fun h => ?_⟩
  exact absurd (h.inside [ascii ".."] (by decide)) (by decide)

end SimpleHttp
