import BroCut.Lines

/-!
# Where the loop can go wrong

From a bounded state no pass reads outside an array (`step_ne_outOfBounds`). What is left of
undefined behaviour is the counting loop of `find_output_indexes` under the NUL separator,
which reads past the terminator of a `#fields` line, and `strftime` on the NULL that
`localtime` or `gmtime` returns for a time value of a data line. On lines short enough that
the `int` field count cannot overflow, these two are the only sources, over every run
(`undefined_sources`).
-/

namespace BroCut

variable {Tm : Type} (tl : TimeLib Tm)

theorem convertTime_error {o : UserOpts} {x : List Char} {u : Undefined} (h : convertTime tl o x = .error u) :
    u = .nullTm ∧ (if o.timeconv = 1 then tl.localtime (strtol x 10) else tl.gmtime (strtol x 10)) = none := by
  unfold convertTime at h
  generalize (if o.timeconv = 1 then tl.localtime (strtol x 10) else tl.gmtime (strtol x 10)) = c at h ⊢
  cases c with
  | none => cases h; exact ⟨rfl, rfl⟩
  | some tm => dsimp only at h; split_ifs at h

theorem outputField_error {o : UserOpts} {lp : LogParams} {tmp : List (List Char)}
    {hdr dotimeconv dotimetypeconv : Bool} {v : Int} {u : Undefined}
    (h : outputField tl o lp tmp hdr dotimeconv dotimetypeconv v = .error u) :
    u = .outOfBounds ∨ u = .nullTm ∧ dotimeconv = true ∧
      ∃ x ∈ tmp, (if o.timeconv = 1 then tl.localtime (strtol x 10) else tl.gmtime (strtol x 10)) = none := by
  unfold outputField at h
  split at h
  · cases h
  rcases except_bind_eq_error h with h | ⟨conv, hconv, h⟩
  · cases dotimeconv
    · simp at h
    · exact .inl (readAt_error ((if_pos rfl).symm.trans h))
  cases conv
  · rcases except_bind_eq_error h with h | ⟨field, -, h⟩
    · exact .inl (readAt_error h)
    · split at h <;> cases h
  · rcases except_bind_eq_error h with h | ⟨x, hx, h⟩
    · exact .inl (readAt_error h)
    obtain ⟨rfl, hnull⟩ := convertTime_error tl h
    have hd : dotimeconv = true := by
      by_contra hd
      simp [hd] at hconv
    exact .inr ⟨rfl, hd, x, mem_of_readAt hx, hnull⟩

theorem outputIndexes_undefined {hdr : Bool} {line : List Char} {lp : LogParams} {o : UserOpts}
    {u : Undefined} (h : outputIndexes tl hdr line lp o = .error u) :
    u = .outOfBounds ∨ u = .nullTm ∧ hdr = false ∧ o.timeconv ≠ 0 ∧
      ∃ x ∈ line.splitOn lp.ifs, (if o.timeconv = 1 then tl.localtime (strtol x 10)
        else tl.gmtime (strtol x 10)) = none := by
  unfold outputIndexes at h
  dsimp only at h
  generalize (lp.idxRange + if hdr then 1 else 0) = n at h
  generalize ht : strsepN lp.ifs n (some line) = tmp at h
  split at h
  · cases h; exact .inl rfl
  split at h
  · cases h
  rcases except_bind_eq_error h with h | ⟨first, -, h⟩
  · cases hdr
    · simp at h
    · exact .inl (readAt_error ((if_pos rfl).symm.trans h))
  rcases except_bind_eq_error h with h | ⟨fields, -, h⟩
  · obtain ⟨v, -, hv⟩ := mapM_error_mem h
    rcases outputField_error tl hv with hu | ⟨hu, hd, x, hx, hnull⟩
    · exact .inl hu
    · simp only [Bool.and_eq_true, decide_eq_true_eq, Bool.not_eq_true'] at hd
      rw [← ht, strsepN_some] at hx
      exact .inr ⟨hu, hd.2, hd.1, x, List.mem_of_mem_take hx, hnull⟩
  · cases h

theorem findOutputIndexes_undefined {line : List Char} {lp : LogParams} {o : UserOpts} {u : Undefined}
    (hl : nul ∉ line) (h : findOutputIndexes line lp o = .error u) : u = .pastTerminator ∧ lp.ifs = nul := by
  by_cases hs : lp.ifs = nul
  · simp only [findOutputIndexes, hs, countSeps_nul hl, except_error_bind] at h
    cases h
    exact ⟨rfl, hs⟩
  · rw [findOutputIndexes_spec line lp o hs] at h
    cases h

/-- From a bounded state, a pass is undefined only on a `#fields` line read under the NUL
separator, or on a data line under time conversion with a field the calendar returns NULL
for. -/
theorem step_undefined (o : UserOpts) {st : RunState} (hb : Bounded o st.lp st.prevFieldsLine)
    {raw : List Char} {u : Undefined} (h : step tl o st raw = .error (.undefined u)) :
    u = .pastTerminator ∧ st.lp.ifs = nul ∧ classify (lineText raw) = .fields ∨
    u = .nullTm ∧ isHdr (lineText raw) = false ∧ o.timeconv ≠ 0 ∧
      ∃ x ∈ (lineText raw).splitOn st.lp.ifs, (if o.timeconv = 1 then tl.localtime (strtol x 10)
        else tl.gmtime (strtol x 10)) = none := by
  have hoob : u ≠ .outOfBounds := fun hu => step_ne_outOfBounds tl o hb raw (hu ▸ h)
  by_cases hf : st.prevFieldsLine ∧ hasPrefix (lineText raw) "#types" = false
  · rw [step_missingTypes tl hf] at h; cases h
  cases hd : isHdr (lineText raw)
  · rw [step_data tl hf hd] at h
    rcases except_bind_eq_error h with h | ⟨e, -, h⟩
    · rcases outputIndexes_undefined tl (undef_eq_error h) with hu | ⟨hu, -, h0, hnull⟩
      · exact absurd hu hoob
      · exact .inr ⟨hu, rfl, h0, hnull⟩
    · cases h
  rw [step_header tl hf hd] at h
  rcases except_bind_eq_error h with h | ⟨st', -, h⟩
  · generalize hk : classify (lineText raw) = k at h
    cases k with
    | fields =>
      simp only [updateHeader] at h
      rcases except_bind_eq_error h with h | ⟨lp, -, h⟩
      · obtain ⟨hu, hs⟩ := findOutputIndexes_undefined (nul_not_mem_cstr _) (undef_eq_error h)
        exact .inl ⟨hu, by simpa using hs, rfl⟩
      · cases h
    | types =>
      simp only [updateHeader] at h
      split_ifs at h
      · cases h
      · split at h <;> cases h
    | _ => simp only [updateHeader] at h; cases h
  rcases except_bind_eq_error h with h | ⟨e, -, h⟩
  · have h := undef_eq_error h
    unfold showHeader emitHeader at h
    split_ifs at h
    rcases outputIndexes_undefined tl h with hu | ⟨-, hh, -⟩
    · exact absurd hu hoob
    · cases hh
  · cases h

theorem exec_undefined_split (o : UserOpts) {ls : List (List Char)} {u : Undefined}
    (h : exec tl o .start ls = .undefined u) :
    ∃ pre raw rest st out err, ls = pre ++ raw :: rest ∧ exec tl o .start pre = .running st out err ∧
      step tl o st raw = .error (.undefined u) := by
  induction ls using List.reverseRecOn with
  | nil => cases h
  | append_singleton ls raw ih =>
    rw [exec_append] at h
    cases hr : exec tl o .start ls with
    | undefined u' =>
      rw [hr, exec_undefined] at h
      cases h
      obtain ⟨pre, raw', rest, st, out, err, rfl, h₁, h₂⟩ := ih hr
      exact ⟨pre, raw', rest ++ [raw], st, out, err, by simp, h₁, h₂⟩
    | failed out err => rw [hr, exec_failed] at h; cases h
    | running st out err =>
      rw [hr, exec_cons, exec_nil, Run.feed] at h
      split at h <;> cases h
      exact ⟨ls, raw, [], st, out, err, rfl, hr, ‹_›⟩

theorem ifs_of_exec (o : UserOpts) {ls : List (List Char)} {st : RunState} {out : List (List Char)}
    {err : List Diag} (h : exec tl o .start ls = .running st out err) : st.lp.ifs = (declaredSep ls).getD '\t' :=
  exec_induction tl o (fun ls st => st.lp.ifs = (declaredSep ls).getD '\t') rfl
    (fun _ _ _ _ _ _ _ _ hi hs => (separators_step (step_moves tl hs)).1 hi) h

theorem numFields_of_exec (o : UserOpts) {m : Nat} {ls : List (List Char)} {st : RunState}
    {out : List (List Char)} {err : List Diag} (hm : ∀ raw ∈ ls, raw.length ≤ m)
    (h : exec tl o .start ls = .running st out err) : st.lp.numFields ≤ m + 1 := by
  refine exec_induction tl o (fun ls st => (∀ raw ∈ ls, raw.length ≤ m) → st.lp.numFields ≤ m + 1)
    (fun _ => Nat.zero_le _) (fun ls st _ _ raw st' _ _ ih hs hm' => ?_) h hm
  have ih := ih fun r hr => hm' r (List.mem_append_left _ hr)
  have hraw := hm' raw (List.mem_append_right _ (List.mem_singleton_self _))
  have hmv := step_moves tl hs
  unfold Moves at hmv
  split at hmv
  · exact hmv.2.2 ▸ ih
  · exact hmv.2.2 ▸ ih
  · exact hmv.2.2 ▸ ih
  · have hf := findOutputIndexes_numFields (nul_not_mem_cstr _) hmv.2.2
    have hc : (cstr (raw.dropLast.drop 8)).length ≤ raw.length :=
      (List.takeWhile_prefix _).length_le.trans (by simp; omega)
    omega
  · obtain ⟨-, -, ht⟩ := hmv
    split_ifs at ht
    · exact ht ▸ ih
    · rw [findTimecol_spec] at ht
      split_ifs at ht
      exact Option.some.inj ht ▸ ih

/-- On lines shorter than `INT_MAX - 1` bytes, the `int` field count of `find_output_indexes` and
the `num_fields + 1` it allocates never overflow, and bro-cut has two sources of undefined
behaviour, whatever the stream and the options, and never reads outside an array: a
`#fields` line read after a `#separator ` line that declared NUL, where `strchr` reads past
the terminator; and under `-d` or `-u` a data line with a field, split at the declared
separator, whose value `localtime` or `gmtime` returns NULL for, which `strftime` is then
handed. -/
theorem undefined_sources (o : UserOpts) (ls : List (List Char)) (hlen : ∀ raw ∈ ls, raw.length + 1 < intMax) :
    (∀ pre st out err, pre <+: ls → exec tl o .start pre = .running st out err →
      st.lp.numFields + 1 ≤ intMax) ∧
    ∀ u, exec tl o .start ls = .undefined u →
      (u = .pastTerminator ∧ ∃ pre raw, pre ++ [raw] <+: ls ∧ declaredSep pre = some nul ∧
          classify (lineText raw) = .fields) ∨
      u = .nullTm ∧ o.timeconv ≠ 0 ∧ ∃ pre raw, pre ++ [raw] <+: ls ∧ isHdr (lineText raw) = false ∧
          ∃ x ∈ (lineText raw).splitOn ((declaredSep pre).getD '\t'),
            (if o.timeconv = 1 then tl.localtime (strtol x 10) else tl.gmtime (strtol x 10)) = none := by
  refine ⟨fun pre st out err hp h => ?_, fun u h => ?_⟩
  · have hmax : intMax = 2147483647 := rfl
    have := numFields_of_exec tl o (m := intMax - 2) (fun r hr => by have := hlen r (hp.subset hr); omega) h
    omega
  obtain ⟨pre, raw, rest, st, out, err, rfl, hrun, hs⟩ := exec_undefined_split tl o h
  have hpre : pre ++ [raw] <+: pre ++ raw :: rest := ⟨rest, by simp⟩
  have hifs := ifs_of_exec tl o hrun
  rcases step_undefined tl o (bounded_of_exec tl o hrun) hs with ⟨hu, hnul, hk⟩ | ⟨hu, hd, h0, hnull⟩
  · refine .inl ⟨hu, pre, raw, hpre, ?_, hk⟩
    rw [hifs] at hnul
    cases hds : declaredSep pre with
    | none => rw [hds] at hnul; exact absurd hnul (by decide)
    | some c => rw [hds] at hnul; exact congrArg some hnul
  · exact .inr ⟨hu, h0, pre, raw, hpre, hd, hifs ▸ hnull⟩

/-- Under `-u`, the first second whose year is past `tm_year`. -/
theorem undefined_sources_sample :
    exec TimeLib.utcRange ⟨0, false, 2, [], [], "%s".toList⟩ .start
        ["#separator \\x09\n".toList, "#fields\tts\n".toList, "#types\ttime\n".toList,
          "67768036191676800\n".toList] = .undefined .nullTm ∧
      ((Undefined.nullTm = .pastTerminator ∧ ∃ pre raw, pre ++ [raw] <+: ["#separator \\x09\n".toList,
          "#fields\tts\n".toList, "#types\ttime\n".toList, "67768036191676800\n".toList] ∧
          declaredSep pre = some nul ∧ classify (lineText raw) = .fields) ∨
        Undefined.nullTm = .nullTm ∧ (2 : Nat) ≠ 0 ∧ ∃ pre raw, pre ++ [raw] <+: ["#separator \\x09\n".toList,
          "#fields\tts\n".toList, "#types\ttime\n".toList, "67768036191676800\n".toList] ∧
          isHdr (lineText raw) = false ∧ ∃ x ∈ (lineText raw).splitOn ((declaredSep pre).getD '\t'),
            (if (2 : Nat) = 1 then TimeLib.utcRange.localtime (strtol x 10)
              else TimeLib.utcRange.gmtime (strtol x 10)) = none) :=
  ⟨by decide, (undefined_sources TimeLib.utcRange ⟨0, false, 2, [], [], "%s".toList⟩ _ (by decide)).2 _
    (by decide)⟩

end BroCut
