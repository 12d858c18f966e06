import BroCut.Driver

/-!
# Header blocks

`headers_seen` counts the maximal runs of `#`-lines the loop has entered, saturating at 2,
and `prev_line_hdr` remembers whether the last line was one. So a `#`-line is shown exactly
when the mode allows its run: every run in mode 2, the first in mode 1, none in mode 0.
-/

namespace BroCut

/-- The number of maximal runs of `#`-lines: the places where a line that is not a
`#`-line, or the start of the stream, is followed by a `#`-line. -/
def hashRuns (lines : List (List Char)) : Nat :=
  let hs := lines.map isHdr
  ((false :: hs).zip hs).count (false, true)

def lastIsHdr (lines : List (List Char)) : Bool := (lines.getLast?.map isHdr).getD false

theorem zip_cons_append_singleton {α : Type} (a y : α) (l : List α) :
    (a :: (l ++ [y])).zip (l ++ [y]) = (a :: l).zip l ++ [((a :: l).getLast (by simp), y)] := by
  induction l generalizing a with
  | nil => rfl
  | cons b l ih => simp [ih]

theorem hashRuns_append (lines : List (List Char)) (x : List Char) :
    hashRuns (lines ++ [x]) = hashRuns lines + if isHdr x && !lastIsHdr lines then 1 else 0 := by
  have hlast : (false :: lines.map isHdr).getLast (by simp) = lastIsHdr lines := by
    cases lines using List.reverseRecOn <;> simp [lastIsHdr, List.getLast_append]
  simp only [hashRuns, List.map_append, List.map_cons, List.map_nil,
    zip_cons_append_singleton, List.count_append, hlast]
  cases isHdr x <;> cases lastIsHdr lines <;> simp

theorem one_le_hashRuns {lines : List (List Char)} (h : lastIsHdr lines = true) :
    1 ≤ hashRuns lines := by
  induction lines using List.reverseRecOn with
  | nil => simp [lastIsHdr] at h
  | append_singleton xs x ih =>
    have hx : isHdr x = true := by simpa [lastIsHdr, List.getLast?_concat] using h
    rw [hashRuns_append, hx]
    cases hl : lastIsHdr xs
    · simp
    · have := ih hl; simp; omega

variable {Tm : Type} (tl : TimeLib Tm)

theorem counters_reachable (o : UserOpts) (ls : List (List Char)) {st : RunState}
    {out : List (List Char)} {err : List Diag} (h : exec tl o .start ls = .running st out err) :
    st.headersSeen = min 2 (hashRuns (ls.map lineText)) ∧
      st.prevLineHdr = lastIsHdr (ls.map lineText) := by
  refine exec_induction tl o (fun ls st => st.headersSeen = min 2 (hashRuns (ls.map lineText)) ∧
    st.prevLineHdr = lastIsHdr (ls.map lineText)) ⟨rfl, rfl⟩ (fun ls st₀ _ _ l st' _ _ ⟨ih1, ih2⟩ hs => ?_) h
  obtain ⟨h1, h2, -⟩ := step_counters tl hs
  refine ⟨?_, by simp [h1, lastIsHdr, List.getLast?_concat]⟩
  rw [h2, List.map_append, List.map_singleton, hashRuns_append, ih1, ← ih2]
  generalize hashRuns (List.map lineText ls) = n
  cases isHdr (lineText l) <;> cases st₀.prevLineHdr <;> simp
  split_ifs <;> omega

/-- In every reachable state `headers_seen` is the number of runs of `#`-lines begun so
far, capped at 2, and a `#`-line that the loop completes is handed to the emitter exactly
when the header mode is 2, or is 1 and the line lies in the first run. -/
theorem header_display_policy (o : UserOpts) (ls : List (List Char)) {st : RunState}
    {out : List (List Char)} {err : List Diag} (h : exec tl o .start ls = .running st out err) :
    st.headersSeen = min 2 (hashRuns (ls.map lineText)) ∧
    ∀ (l : List Char) (st' : RunState) (e : Emit), isHdr (lineText l) →
      step tl o st l = .ok (st', e) →
      undef (if 2 ≤ o.showhdr ∨ (o.showhdr = 1 ∧ hashRuns ((ls ++ [l]).map lineText) = 1)
        then emitHeader tl o st'.lp (lineText l) else .ok ⟨[], []⟩) = .ok e := by
  refine ⟨(counters_reachable tl o ls h).1, fun l st' e hl hs => ?_⟩
  have hrun : exec tl o .start (ls ++ [l]) = .running st' (out ++ e.out) (err ++ e.err) := by
    simp [exec_append, h, Run.feed, hs]
  have hseen := (counters_reachable tl o _ hrun).1
  have hpos : 1 ≤ hashRuns ((ls ++ [l]).map lineText) :=
    one_le_hashRuns (by simp [lastIsHdr, List.getLast?_concat, hl])
  rw [← (step_counters tl hs).2.2 hl, showHeader]
  congr 2
  apply propext
  omega

/-- Under `-c`, after a header block and a data line, a second header block is not shown. -/
theorem header_display_policy_sample :
    ∃ st out err, exec TimeLib.stub ⟨1, false, 0, [], [], []⟩ .start sampleLines = .running st out err ∧
      st.headersSeen = min 2 (hashRuns (sampleLines.map lineText)) ∧
      ∃ st' e, step TimeLib.stub ⟨1, false, 0, [], [], []⟩ st "#separator \\x2c\n".toList = .ok (st', e) ∧
        undef (if 2 ≤ 1 ∨ (1 = 1 ∧ hashRuns ((sampleLines ++ ["#separator \\x2c\n".toList]).map lineText) = 1)
          then emitHeader TimeLib.stub ⟨1, false, 0, [], [], []⟩ st'.lp (lineText "#separator \\x2c\n".toList)
          else .ok ⟨[], []⟩) = .ok e :=
  have h := @header_display_policy _ TimeLib.stub ⟨1, false, 0, [], [], []⟩ sampleLines _ _ _ rfl
  ⟨_, _, _, rfl, h.1, _, _, rfl, h.2 _ _ _ (by decide) rfl⟩

end BroCut
