import BroCut.Bounds
import BroCut.SeparatorState

/-!
# The exit status

`bro_cut` returns 1 when the header order breaks: a line after a `#fields` line that is not a
`#types` line, a `#types` line after any other line, or, under time conversion, a `#types`
line with fewer entries than the `idx_range` of the `#fields` line before it. Which line
does so can be read off the lines alone (`violates`, `firstViolation`). When no
`#separator ` line declares NUL and the calendar gives a time for every field it is asked to
convert (`CalendarCovers`), the loop is never undefined:
it stops at the first such line, having written what it writes on the lines before it, and
otherwise reads every line and returns 0 (`fatal_iff_violation`).
-/

namespace BroCut

def afterFields (ls : List (List Char)) : Bool :=
  (ls.getLast?.map fun f => hasPrefix (lineText f) "#fields").getD false

/-- The names of the last line read, split as a `#fields` payload under the declared
separator. -/
def fieldNames (ls : List (List Char)) : List (List Char) :=
  (cstr ((ls.getLast?.getD []).dropLast.drop 8)).splitOn ((declaredSep ls).getD '\t')

/-- Whether the line `raw`, read after the lines `ls`, breaks the header order. -/
def violates (o : UserOpts) (ls : List (List Char)) (raw : List Char) : Bool :=
  if afterFields ls then
    !hasPrefix (lineText raw) "#types" || (decide (o.timeconv ≠ 0) &&
      decide (((cstr (raw.dropLast.drop 7)).splitOn ((declaredSep ls).getD '\t')).length <
        selectionRange o (fieldNames ls)))
  else hasPrefix (lineText raw) "#types"

/-- The position of the first line of `rest` that breaks the header order after the lines
`pre`, counted from the start of `pre`. -/
def firstViolationFrom (o : UserOpts) (pre : List (List Char)) : List (List Char) → Option Nat
  | [] => none
  | raw :: rest => if violates o pre raw then some pre.length else firstViolationFrom o (pre ++ [raw]) rest

def firstViolation (o : UserOpts) (ls : List (List Char)) : Option Nat := firstViolationFrom o [] ls

theorem firstViolationFrom_append (o : UserOpts) (pre ls : List (List Char)) (raw : List Char) :
    firstViolationFrom o pre (ls ++ [raw]) = (firstViolationFrom o pre ls).or
      (if violates o (pre ++ ls) raw then some (pre ++ ls).length else none) := by
  induction ls generalizing pre with
  | nil => simp [firstViolationFrom]
  | cons l ls ih =>
    rw [List.cons_append, firstViolationFrom, firstViolationFrom]
    by_cases hl : violates o pre l
    · simp [hl]
    · simp only [hl, Bool.false_eq_true, if_false]
      rw [ih]
      simp

theorem firstViolation_append (o : UserOpts) (ls : List (List Char)) (raw : List Char) :
    firstViolation o (ls ++ [raw]) =
      (firstViolation o ls).or (if violates o ls raw then some ls.length else none) := by
  simpa using firstViolationFrom_append o [] ls raw

@[simp] theorem afterFields_append (ls : List (List Char)) (raw : List Char) :
    afterFields (ls ++ [raw]) = hasPrefix (lineText raw) "#fields" := by
  simp [afterFields]

theorem fieldNames_append (ls : List (List Char)) (raw : List Char) :
    fieldNames (ls ++ [raw]) = (cstr (raw.dropLast.drop 8)).splitOn ((declaredSep (ls ++ [raw])).getD '\t') := by
  simp [fieldNames]

theorem hasPrefix_fields_eq (line : List Char) :
    hasPrefix line "#fields" = decide (classify line = .fields) := by
  cases h : hasPrefix line "#fields"
  · unfold classify
    split_ifs <;> simp_all
  · simp [classify_of_fields h]

theorem hasPrefix_types_eq (line : List Char) :
    hasPrefix line "#types" = decide (classify line = .types) := by
  cases h : hasPrefix line "#types"
  · unfold classify
    split_ifs <;> simp_all
  · simp [classify_of_types h]

theorem declaredSep_ne_nul {ls : List (List Char)}
    (hsep : ∀ l ∈ ls, classify (lineText l) = .separator → parsesep (cstr (l.dropLast.drop 11)) ≠ nul) :
    (declaredSep ls).getD '\t' ≠ nul := by
  induction ls using List.reverseRecOn with
  | nil => decide
  | append_singleton ls raw ih =>
    rw [declaredSep_append]
    split_ifs with hk
    · exact hsep raw (by simp) hk
    · exact ih fun l hl => hsep l (List.mem_append_left _ hl)

/-- What the run state records of the lines `ls` read so far: the bounds, the declared
separator, whether the last line was a `#fields` line, and then the `idx_range` of its
names. -/
structure Tracks (o : UserOpts) (ls : List (List Char)) (st : RunState) : Prop where
  bounded : Bounded o st.lp st.prevFieldsLine
  ifs : st.lp.ifs = (declaredSep ls).getD '\t'
  fields : st.prevFieldsLine = afterFields ls
  range : st.prevFieldsLine = true → st.lp.idxRange = selectionRange o (fieldNames ls)

theorem tracks_init (o : UserOpts) : Tracks o [] RunState.init :=
  ⟨bounded_init o, rfl, rfl, fun h => nomatch h⟩

theorem tracks_step {o : UserOpts} {ls : List (List Char)} {st st' : RunState} {raw : List Char}
    (ht : Tracks o ls st) (hm : Moves o st raw st') : Tracks o (ls ++ [raw]) st' := by
  have hf := step_prevFieldsLine hm
  refine ⟨bounded_step ht.bounded hm, (separators_step hm).1 ht.ifs,
    by rw [hf, afterFields_append, hasPrefix_fields_eq], fun hp => ?_⟩
  have hk : classify (lineText raw) = .fields := by simpa [hf] using hp
  simp only [Moves, hk] at hm
  rw [(findOutputIndexes_ok (nul_not_mem_cstr _) hm.2.2).2, fieldNames_append, declaredSep_append,
    if_neg (by simp [hk]), ← ht.ifs]
  rfl

variable {Tm : Type} (tl : TimeLib Tm)

theorem mapM_exists_ok {α β ε : Type} {f : α → Except ε β} {l : List α} (h : ∀ x ∈ l, ∃ b, f x = .ok b) :
    ∃ bs, l.mapM f = .ok bs := by
  induction l with
  | nil => exact ⟨[], rfl⟩
  | cons x xs ih =>
    obtain ⟨b, hb⟩ := h x (List.mem_cons_self _ _)
    obtain ⟨bs, hbs⟩ := ih fun y hy => h y (List.mem_cons_of_mem _ hy)
    exact ⟨b :: bs, by rw [List.mapM_cons, hb, hbs]; rfl⟩

/-- Under time conversion, the calendar gives a time for every field of every data line of
`ls`, split at the separator declared before it. -/
def CalendarCovers (o : UserOpts) (ls : List (List Char)) : Prop :=
  o.timeconv ≠ 0 → ∀ pre raw, pre ++ [raw] <+: ls → isHdr (lineText raw) = false →
    ∀ x ∈ (lineText raw).splitOn ((declaredSep pre).getD '\t'),
      (if o.timeconv = 1 then tl.localtime (strtol x 10) else tl.gmtime (strtol x 10)).isSome

theorem CalendarCovers.of_prefix {o : UserOpts} {ls ls' : List (List Char)} (h : CalendarCovers tl o ls')
    (hp : ls <+: ls') : CalendarCovers tl o ls :=
  fun h0 pre raw hpre => h h0 pre raw (hpre.trans hp)

theorem convertTime_ok (o : UserOpts) {x : List Char}
    (hx : (if o.timeconv = 1 then tl.localtime (strtol x 10) else tl.gmtime (strtol x 10)).isSome) :
    ∃ r, convertTime tl o x = .ok r :=
  (convertTime_outcome tl o x).2 (by simpa using hx)

theorem outputIndexes_data_ok (o : UserOpts) {lp : LogParams} (hb : Bounded o lp false) (line : List Char)
    (hcal : o.timeconv ≠ 0 → ∀ x ∈ line.splitOn lp.ifs,
      (if o.timeconv = 1 then tl.localtime (strtol x 10) else tl.gmtime (strtol x 10)).isSome) :
    ∃ e, outputIndexes tl false line lp o = .ok e := by
  rw [outputIndexes_data tl line o hb.idxRange_le_tmpAlloc hb.indexes fun h0 => (hb.timeCols h0 rfl).ge]
  split_ifs with hshort
  · exact ⟨_, rfl⟩
  · obtain ⟨fs, hfs⟩ := mapM_exists_ok (f := dataEntry tl o lp (line.splitOn lp.ifs)) fun v hv => by
      unfold dataEntry
      split_ifs with h1 h2
      · exact ⟨_, rfl⟩
      · have hlt : v.toNat < (line.splitOn lp.ifs).length := by
          rcases hb.indexes v hv with h | ⟨h, h'⟩ <;> omega
        exact convertTime_ok tl o (hcal h2.1 _ (by simp [List.getElem?_eq_getElem hlt]))
      · exact ⟨_, rfl⟩
    exact ⟨_, by rw [hfs]; rfl⟩

theorem showHeader_ok (o : UserOpts) (st : RunState) (line : List Char) (hv : IndexesValid st.lp)
    (halloc : (hasPrefix line "#fields" || hasPrefix line "#types") = true →
      st.lp.idxRange + 1 ≤ st.lp.tmpAlloc) :
    ∃ e, showHeader tl o st line = .ok e := by
  unfold showHeader emitHeader
  split_ifs with h1 h2
  · exact ⟨_, outputIndexes_header tl line o (halloc h2) hv⟩
  · exact ⟨_, rfl⟩
  · exact ⟨_, rfl⟩

theorem violates_of_not_types {o : UserOpts} {ls : List (List Char)} {st : RunState} {raw : List Char}
    (ht : Tracks o ls st) (hpre : st.prevFieldsLine → hasPrefix (lineText raw) "#types")
    (hk : classify (lineText raw) ≠ .types) : st.prevFieldsLine = false ∧ violates o ls raw = false := by
  have hp := prevFieldsLine_eq_false hpre hk
  exact ⟨hp, by simp [violates, ← ht.fields, hp, hasPrefix_types_eq, hk]⟩

theorem updateHeader_outcome (o : UserOpts) {ls : List (List Char)} {st : RunState} {raw : List Char}
    (ht : Tracks o ls st) (hnul : st.lp.ifs ≠ nul) (hpre : st.prevFieldsLine → hasPrefix (lineText raw) "#types")
    (hd : classify (lineText raw) ≠ .data) :
    (violates o ls raw →
      ∃ d, updateHeader o raw.dropLast (enterHeader st) (classify (lineText raw)) = .error (.fatal d)) ∧
    (violates o ls raw = false →
      ∃ st', updateHeader o raw.dropLast (enterHeader st) (classify (lineText raw)) = .ok st') := by
  by_cases hk : classify (lineText raw) = .types
  · have htypes : hasPrefix (lineText raw) "#types" := by simp [hasPrefix_types_eq, hk]
    rw [hk]
    cases hp : st.prevFieldsLine
    · have hv : violates o ls raw := by simp [violates, ← ht.fields, hp, htypes]
      exact ⟨fun _ => ⟨.missingFields, by simp [updateHeader, hp]⟩, fun h => absurd hv (by simp [h])⟩
    · have hviol : violates o ls raw = (decide (o.timeconv ≠ 0) &&
          decide (((cstr (raw.dropLast.drop 7)).splitOn st.lp.ifs).length < st.lp.idxRange)) := by
        rw [violates, ← ht.fields, hp, if_pos rfl, htypes, Bool.not_true, Bool.false_or, ← ht.ifs,
          ← ht.range hp]
      by_cases h0 : o.timeconv = 0
      · exact ⟨fun h => absurd h (by simp [hviol, h0]), fun _ => ⟨_, by simp [updateHeader, hp, h0]; rfl⟩⟩
      by_cases hshort : ((cstr (raw.dropLast.drop 7)).splitOn st.lp.ifs).length < st.lp.idxRange
      · exact ⟨fun _ => ⟨.fewTypes, by simp [updateHeader, hp, h0, findTimecol_spec, hshort]⟩,
          fun h => absurd h (by simp [hviol, h0, hshort])⟩
      · exact ⟨fun h => absurd h (by simp [hviol, h0, hshort]),
          fun _ => ⟨_, by simp [updateHeader, hp, h0, findTimecol_spec, hshort]; rfl⟩⟩
  · have hv := (violates_of_not_types ht hpre hk).2
    refine ⟨fun h => absurd h (by simp [hv]), fun _ => ?_⟩
    cases hk' : classify (lineText raw)
    · exact absurd hk' hd
    · exact ⟨_, rfl⟩
    · exact ⟨_, by simp only [updateHeader, enterHeader_lp, findOutputIndexes_spec _ _ _ hnul]; rfl⟩
    · exact absurd hk' hk
    · exact ⟨_, rfl⟩

theorem step_outcome (o : UserOpts) {ls : List (List Char)} {st : RunState} (ht : Tracks o ls st)
    (hnul : st.lp.ifs ≠ nul) (raw : List Char)
    (hcal : o.timeconv ≠ 0 → isHdr (lineText raw) = false → ∀ x ∈ (lineText raw).splitOn st.lp.ifs,
      (if o.timeconv = 1 then tl.localtime (strtol x 10) else tl.gmtime (strtol x 10)).isSome) :
    (violates o ls raw → ∃ d, step tl o st raw = .error (.fatal d)) ∧
    (violates o ls raw = false → ∃ st' e, step tl o st raw = .ok (st', e)) := by
  by_cases hf : st.prevFieldsLine ∧ hasPrefix (lineText raw) "#types" = false
  · have hv : violates o ls raw := by simp [violates, ← ht.fields, hf.1, hf.2]
    exact ⟨fun _ => ⟨_, step_missingTypes tl hf⟩, fun h => absurd hv (by simp [h])⟩
  have hpre : st.prevFieldsLine → hasPrefix (lineText raw) "#types" := fun hp => by simpa [hp] using hf
  cases hd : isHdr (lineText raw)
  · obtain ⟨hp, hv⟩ := violates_of_not_types ht hpre (by simp [classify_eq_data.mpr hd])
    refine ⟨fun h => absurd h (by simp [hv]), fun _ => ?_⟩
    obtain ⟨e, he⟩ := outputIndexes_data_ok tl o (hp ▸ ht.bounded) (lineText raw) fun h0 => hcal h0 hd
    exact ⟨_, e, by rw [step_data tl hf hd, he]; rfl⟩
  · have hnd : classify (lineText raw) ≠ .data := fun h => by simp [classify_eq_data.mp h] at hd
    obtain ⟨hfat, hok⟩ := updateHeader_outcome o ht hnul hpre hnd
    rw [step_header tl hf hd]
    refine ⟨fun hv => ?_, fun hv => ?_⟩
    · obtain ⟨d, hu⟩ := hfat hv
      exact ⟨d, by rw [hu]; rfl⟩
    · obtain ⟨st', hu⟩ := hok hv
      have hm := updateHeader_moves hpre hnd hu
      obtain ⟨e, he⟩ := showHeader_ok tl o st' (lineText raw) (bounded_step ht.bounded hm).indexes
        fun h => slots_of_moves ht.bounded hm ((Bool.or_eq_true_iff.mp h).imp classify_of_fields classify_of_types)
      exact ⟨st', e, by rw [hu, except_bind_ok, he]; rfl⟩

/-- The run over `ls`: while no line has broken the header order the loop runs on, its state
recording the lines read; at the first line that does, it stops with what the lines before
it wrote. -/
theorem exec_outcome (o : UserOpts) (ls : List (List Char))
    (hsep : ∀ l ∈ ls, classify (lineText l) = .separator → parsesep (cstr (l.dropLast.drop 11)) ≠ nul)
    (hcal : CalendarCovers tl o ls) :
    (firstViolation o ls = none → ∃ st out err, exec tl o .start ls = .running st out err ∧ Tracks o ls st) ∧
    ∀ i, firstViolation o ls = some i → i < ls.length ∧ ∃ st out err d,
      exec tl o .start (ls.take i) = .running st out err ∧ exec tl o .start ls = .failed out (err ++ [d]) := by
  induction ls using List.reverseRecOn with
  | nil => exact ⟨fun _ => ⟨_, _, _, rfl, tracks_init o⟩, fun i h => nomatch h⟩
  | append_singleton ls raw ih =>
    obtain ⟨ihn, ihs⟩ := ih (fun l hl => hsep l (List.mem_append_left _ hl))
      (hcal.of_prefix tl (List.prefix_append _ _))
    rw [firstViolation_append]
    cases hfv : firstViolation o ls with
    | some i =>
      obtain ⟨hi, st, out, err, d, h₁, h₂⟩ := ihs i hfv
      refine ⟨(fun h => nomatch h), fun j hj => ?_⟩
      obtain rfl : i = j := by simpa using hj
      refine ⟨by simp; omega, st, out, err, d, by rwa [List.take_append_of_le_length hi.le], ?_⟩
      rw [exec_append, h₂]
      rfl
    | none =>
      obtain ⟨st, out, err, hrun, ht⟩ := ihn hfv
      have hnul : st.lp.ifs ≠ nul :=
        ht.ifs ▸ declaredSep_ne_nul fun l hl => hsep l (List.mem_append_left _ hl)
      obtain ⟨hfat, hok⟩ := step_outcome tl o ht hnul raw fun h0 hd x hx =>
        hcal h0 ls raw (List.prefix_refl _) hd x (ht.ifs ▸ hx)
      cases hv : violates o ls raw
      · obtain ⟨st', e, hs⟩ := hok hv
        exact ⟨fun _ => ⟨st', out ++ e.out, err ++ e.err, by simp [exec_append, hrun, Run.feed, hs],
          tracks_step ht (step_moves tl hs)⟩, fun j hj => by simp at hj⟩
      · obtain ⟨d, hs⟩ := hfat hv
        refine ⟨fun h => by simp at h, fun j hj => ?_⟩
        obtain rfl : ls.length = j := by simpa using hj
        exact ⟨by simp, st, out, err, d, by simpa using hrun, by simp [exec_append, hrun, Run.feed, hs]⟩

end BroCut
