import Mathlib.Data.List.Basic

/-! The tokenizer of the configuration strings. A string is its characters, and a set of delimiters
a test on them. -/

namespace ZSim

/-- The loop of `Tokenize` from `lastPos` on, which is given by the characters left: a token up to
the next delimiter, then the characters after the run of delimiters. -/
def tokenize (delimiters : Char → Bool) (str : List Char) : List (List Char) :=
  match _h : (str.dropWhile (!delimiters ·)).dropWhile delimiters with
  | [] => [str.takeWhile (!delimiters ·)]
  | c :: rest => str.takeWhile (!delimiters ·) :: tokenize delimiters (c :: rest)
termination_by str.length
decreasing_by
  rw [← _h]
  match hdrop : str.dropWhile (!delimiters ·) with
  | [] => simp [hdrop] at _h
  | d :: tail =>
    have hd : delimiters d = true := by
      have hhead := List.head?_dropWhile_not (!delimiters ·) str
      simpa [hdrop] using hhead
    have hsub : (d :: tail).length ≤ str.length :=
      hdrop ▸ (List.dropWhile_suffix (!delimiters ·)).length_le
    rw [List.dropWhile_cons_of_pos hd]
    exact Nat.lt_of_le_of_lt (List.dropWhile_suffix delimiters).length_le hsub

namespace Tokenize

variable {d : Char → Bool} {str : List Char}

/-- The pieces of a string between delimiters that are not empty. -/
def pieces (d : Char → Bool) (str : List Char) : List (List Char) :=
  (str.splitOnP d).filter (· ≠ [])

theorem pieces_dropWhile : pieces d (str.dropWhile d) = pieces d str := by
  induction str with
  | nil => rfl
  | cons c str ih =>
    cases hc : d c with
    | false => simp [hc]
    | true =>
      rw [List.dropWhile_cons_of_pos hc, ih]
      simp [pieces, List.splitOnP_cons_eq_if_modifyHead, hc]

theorem splitOnP_head (d : Char → Bool) (str : List Char) : ∃ tail, str.splitOnP d = str.takeWhile (!d ·) :: tail ∧
    tail.filter (· ≠ []) = pieces d (str.dropWhile (!d ·)) := by
  induction str with
  | nil => exact ⟨[], by simp, by simp [pieces]⟩
  | cons c str ih =>
    rw [List.splitOnP_cons_eq_if_modifyHead]
    cases hc : d c with
    | true => exact ⟨str.splitOnP d, by simp [hc], by
        simp [pieces, List.splitOnP_cons_eq_if_modifyHead, hc]⟩
    | false =>
      obtain ⟨tail, hsplit, htail⟩ := ih
      exact ⟨tail, by simp [hc, hsplit], by simpa [hc] using htail⟩

/-- The first token is the first piece, empty or not; the others are the pieces that are not
empty. -/
theorem tokenize_eq (d : Char → Bool) (str : List Char) :
    ∃ tail, str.splitOnP d = str.takeWhile (!d ·) :: tail ∧
      tokenize d str = str.takeWhile (!d ·) :: tail.filter (· ≠ []) := by
  fun_induction tokenize d str with
  | case1 str hnil =>
    obtain ⟨tail, hsplit, htail⟩ := splitOnP_head d str
    rw [← pieces_dropWhile, hnil] at htail
    exact ⟨tail, hsplit, by simpa [pieces] using htail⟩
  | case2 str c rest hrest ih =>
    obtain ⟨tail, hsplit, htail⟩ := splitOnP_head d str
    rw [← pieces_dropWhile, hrest] at htail
    have hc : d c = false := by
      have hhead := List.head?_dropWhile_not d (str.dropWhile (!d ·))
      simpa [hrest] using hhead
    obtain ⟨tail', hsplit', htokens⟩ := ih
    refine ⟨tail, hsplit, ?_⟩
    rw [htail, htokens, pieces, hsplit']
    simp [hc]

/-- Callers that skip the empty token are left with the pieces. -/
theorem filter_tokenize (d : Char → Bool) (str : List Char) :
    (tokenize d str).filter (· ≠ []) = pieces d str := by
  obtain ⟨tail, hsplit, htokens⟩ := tokenize_eq d str
  rw [htokens, pieces, hsplit, List.filter_cons, List.filter_cons, List.filter_filter]
  simp only [Bool.and_self]

/-- No piece is skipped when all are non-empty. -/
theorem tokenize_of_nonempty (h : ∀ p ∈ str.splitOnP d, p ≠ []) :
    tokenize d str = str.splitOnP d := by
  obtain ⟨tail, hsplit, htokens⟩ := tokenize_eq d str
  rw [hsplit] at h
  rw [htokens, hsplit, List.filter_eq_self.mpr]
  intro p hp
  simpa using h p (List.mem_cons_of_mem _ hp)

end Tokenize

end ZSim
