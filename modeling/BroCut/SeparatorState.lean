import BroCut.Driver

/-!
# The separators of the run state

`lp.ifs` and `lp.ofs` start as tabs and change only on a `#separator ` line, which installs
the declared byte as `ifs` and, unless the user gave an output separator, as `ofs`. So the
user's output separator takes effect only from the first `#separator ` line on
(`separators_reachable`): lines projected before it are joined with a tab. A `#separator `
line that declares NUL makes the next `#fields` line walk past its payload
(`step_fields_nul`).
-/

namespace BroCut

/-- The byte the latest `#separator ` line among `ls` declares. -/
def declaredSep (ls : List (List Char)) : Option Char :=
  ls.foldl (fun acc l => if classify (lineText l) = .separator then
    some (parsesep (cstr (l.dropLast.drop 11))) else acc) none

theorem declaredSep_append (ls : List (List Char)) (raw : List Char) :
    declaredSep (ls ++ [raw]) = if classify (lineText raw) = .separator then
      some (parsesep (cstr (raw.dropLast.drop 11))) else declaredSep ls := by
  simp [declaredSep, List.foldl_append]

theorem moves_keep_separators {o : UserOpts} {st st' : RunState} {raw : List Char}
    (hm : Moves o st raw st') (hk : classify (lineText raw) ≠ .separator) :
    st'.lp.ifs = st.lp.ifs ∧ st'.lp.ofs = st.lp.ofs := by
  cases hk' : classify (lineText raw) <;> simp only [Moves, hk'] at hm
  case separator => exact absurd hk' hk
  case fields => rw [(findOutputIndexes_ok (nul_not_mem_cstr _) hm.2.2).2]; exact ⟨rfl, rfl⟩
  case types =>
    obtain ⟨-, -, hlp⟩ := hm
    split_ifs at hlp
    · rw [hlp]; exact ⟨rfl, rfl⟩
    · rw [findTimecol_some hlp]; exact ⟨rfl, rfl⟩
  all_goals rw [hm.2.2]; exact ⟨rfl, rfl⟩

theorem separators_step {o : UserOpts} {ls : List (List Char)} {st st' : RunState} {raw : List Char}
    (hm : Moves o st raw st') :
    (st.lp.ifs = (declaredSep ls).getD '\t' → st'.lp.ifs = (declaredSep (ls ++ [raw])).getD '\t') ∧
    (st.lp.ofs = ((declaredSep ls).map (outSep o)).getD '\t' →
      st'.lp.ofs = ((declaredSep (ls ++ [raw])).map (outSep o)).getD '\t') := by
  rw [declaredSep_append]
  by_cases hk : classify (lineText raw) = .separator
  · simp only [Moves, hk] at hm
    simp [hk, hm.2.2]
  · rw [if_neg hk, (moves_keep_separators hm hk).1, (moves_keep_separators hm hk).2]
    exact ⟨id, id⟩

variable {Tm : Type} (tl : TimeLib Tm)

/-- In every reachable state the input separator is the one the latest `#separator ` line
declared, and the output separator the user's when given, else that one; both are tabs
before any `#separator ` line, whatever the user gave. -/
theorem separators_reachable (o : UserOpts) (ls : List (List Char)) {st : RunState}
    {out : List (List Char)} {err : List Diag} (h : exec tl o .start ls = .running st out err) :
    st.lp.ifs = (declaredSep ls).getD '\t' ∧ st.lp.ofs = ((declaredSep ls).map (outSep o)).getD '\t' :=
  exec_induction tl o (fun ls st => st.lp.ifs = (declaredSep ls).getD '\t' ∧
    st.lp.ofs = ((declaredSep ls).map (outSep o)).getD '\t') ⟨rfl, rfl⟩
    (fun _ _ _ _ _ _ _ _ ⟨hi, ho⟩ hs => ⟨(separators_step (step_moves tl hs)).1 hi,
      (separators_step (step_moves tl hs)).2 ho⟩) h

/-- After the log declares `,` under `-F ;`. -/
theorem separators_reachable_sample :
    ∃ st out err, exec TimeLib.stub ⟨0, false, 0, [], [';'], []⟩ .start sampleLines = .running st out err ∧
      st.lp.ifs = (declaredSep sampleLines).getD '\t' ∧
      st.lp.ofs = ((declaredSep sampleLines).map (outSep ⟨0, false, 0, [], [';'], []⟩)).getD '\t' :=
  ⟨_, _, _, rfl, separators_reachable TimeLib.stub ⟨0, false, 0, [], [';'], []⟩ sampleLines rfl⟩

/-- An output separator given by the user is not used before the log declares a separator. -/
theorem ofs_override_before_separator :
    (broCut TimeLib.stub ⟨0, false, 0, [], [','], []⟩
      "#fields\ta\tb\n#types\tstring\tstring\n1\t2\n".toList).stdout = "1\t2\n".toList := by
  decide

/-- A `#fields` line under the NUL separator: the counting loop's `strchr` finds the
terminator, and `field++` steps past it. -/
theorem step_fields_nul (o : UserOpts) {st : RunState} {raw : List Char} (hs : st.lp.ifs = nul)
    (hk : classify (lineText raw) = .fields) (hp : st.prevFieldsLine = false) :
    step tl o st raw = .error (.undefined .pastTerminator) := by
  have hd : isHdr (lineText raw) = true := by
    cases hd : isHdr (lineText raw)
    · simp [classify_eq_data.mpr hd] at hk
    · rfl
  rw [step_header tl (by simp [hp]) hd, hk]
  simp [updateHeader, hs, findOutputIndexes, countSeps_nul (nul_not_mem_cstr _), undef,
    Except.mapError]

/-- `\x00`, a malformed escape and an empty specification all declare NUL, after which a
`#fields` line is read past its end. -/
theorem nul_separator_reads_past_payload :
    parsesep "\\x00".toList = nul ∧ parsesep "\\xZZ".toList = nul ∧ parsesep "\\x".toList = nul ∧
      parsesep [] = nul ∧
      broCut TimeLib.stub ⟨0, false, 0, [], [], []⟩ "#separator \\x00\n#fields\ta\n".toList =
        .undefined .pastTerminator := by
  refine ⟨by decide, by decide, by decide, by decide, ?_⟩
  obtain ⟨st, hsep, hifs, hp⟩ : ∃ st, exec TimeLib.stub ⟨0, false, 0, [], [], []⟩ .start
      ["#separator \\x00\n".toList] = .running st [] [] ∧ st.lp.ifs = nul ∧ st.prevFieldsLine = false :=
    ⟨_, rfl, rfl, rfl⟩
  rw [broCut, show getlines [] "#separator \\x00\n#fields\ta\n".toList =
    ["#separator \\x00\n".toList] ++ ["#fields\ta\n".toList] from rfl, exec_append, hsep]
  simp only [exec_cons, exec_nil, Run.feed,
    @step_fields_nul _ TimeLib.stub _ _ "#fields\ta\n".toList hifs (by decide) hp]

/-- A stream with no header fault whose `#separator ` line declares NUL does not come back
with a status: its `#fields` line is counted past its end. -/
theorem nul_separator_no_status :
    (broCut TimeLib.stub ⟨0, false, 0, [], [], []⟩
      "#separator \\x00\n#fields\ta\n#types\tstring\n1\n".toList).status = none := by
  decide

end BroCut
