import SimpleHttp.Lib.Format

namespace SimpleHttp.Lib

/-!
# Library — the words of a text

`words s` is the list of the maximal runs of non-space bytes in `s`, which is what any sequence of
`%s` conversions reads:

* `words_eq` — the first word is the token behind the leading white space.
* `ReadsWords fmt k` — the format assigns the first `k` words; `ReadsWords.str` and
  `ReadsWords.space` show it directive by directive.
-/

/-- The words of a text. -/
def words (s : Bytes) : List Bytes := (s.splitOnP isspace).filter (· ≠ [])

@[simp] theorem words_nil : words [] = [] := rfl

/-- White space in front of the text belongs to no word. -/
theorem words_cons_space {b : UInt8} (hb : isspace b = true) (s : Bytes) :
    words (b :: s) = words s := by
  have hsplit : (b :: s).splitOnP isspace = [] :: s.splitOnP isspace := by
    simpa using List.splitOnP_append_cons [] s hb
  rw [words, hsplit, words]
  rfl

/-- White space in front makes no word. -/
theorem words_skipSpace (s : Bytes) : words (skipSpace s) = words s := by
  induction s with
  | nil => rfl
  | cons b s ih =>
    by_cases hb : isspace b = true
    · rw [words_cons_space hb, ← ih]
      simp [skipSpace, hb]
    · simp [skipSpace, hb]

/-- A word, up to the white space behind it. -/
theorem words_append {w s : Bytes} (hw : IsWord w) (hs : EndsWord s) :
    words (w ++ s) = w :: words s := by
  have hone : w.splitOnP isspace = [w] := List.splitOnP_eq_singleton hw.2
  cases s with
  | nil => simp [words, hone, hw.1]
  | cons b s =>
    have hb : isspace b = true := hs b rfl
    rw [words_cons_space hb, words, List.splitOnP_append_cons w s hb, hone]
    simp [words, hw.1]

/-- A text that starts with neither white space nor a token is empty. -/
theorem skipSpace_eq_nil {s : Bytes} (h : token (skipSpace s) = []) : skipSpace s = [] := by
  have hhead := head_dropWhile (p := isspace) s
  rw [← skipSpace] at hhead
  cases hskip : skipSpace s with
  | nil => rfl
  | cons b t =>
    rw [hskip] at hhead h
    have hb : isspace b = false := hhead b rfl
    simp [token, hb] at h

/-- **Words.**  There is a first word exactly if there is a token behind the leading white
    space, and it is that token. -/
theorem words_eq (s : Bytes) :
    words s = if token (skipSpace s) = [] then []
      else token (skipSpace s) :: words ((skipSpace s).drop (token (skipSpace s)).length) := by
  obtain ⟨hsplit, hend⟩ := token_append_drop (skipSpace s)
  split
  · rename_i hnil
    rw [← words_skipSpace, skipSpace_eq_nil hnil, words_nil]
  · -- behind the white space, the text is its token and what ends it
    rename_i hne
    rw [← words_skipSpace]
    conv_lhs => rw [← hsplit]
    exact words_append (isWord_token hne) hend

/-! ### Formats that read words -/

/-- The format assigns the first `k` words of any text. -/
def ReadsWords (fmt : List Directive) (k : Nat) : Prop :=
  ∀ s, sscanf fmt s = ((words s).take k).map .str

/-- The empty format reads nothing. -/
theorem readsWords_nil : ReadsWords [] 0 := fun s => by simp [sscanf]

/-- White space in a format reads no word. -/
theorem ReadsWords.space {fmt : List Directive} {k : Nat} (h : ReadsWords fmt k) :
    ReadsWords (.space :: fmt) k := by
  intro s
  rw [sscanf, h, words_skipSpace]

/-- `%s` in a format reads one word. -/
theorem ReadsWords.str {fmt : List Directive} {k : Nat} (h : ReadsWords fmt k) :
    ReadsWords (.str :: fmt) (k + 1) := by
  intro s
  rw [sscanf, words_eq]
  by_cases hnil : token (skipSpace s) = []
  · simp [hnil]
  · simp [hnil, h _]

end SimpleHttp.Lib
