import BroCut.Driver

/-!
# The bounds of the run state

Every state the loop reaches keeps what the reads of `output_indexes` need: each entry of
`out_indexes` is `-1` or below `idx_range`, the entries fit their allocation, `idx_range` is
at most `num_fields` and `tmp_fields` has `num_fields + 1` slots once a `#fields` line has
been read, and with time conversion on `time_cols` has `idx_range` entries, the flags of the
`#types` line that followed the latest `#fields` line. No pass from such a state reads
outside an array. The separators declared play no part: under a NUL separator the first
`#fields` line already ends the run (`countSeps_nul`).
-/

namespace BroCut

/-- The bounds `output_indexes` relies on, for the parameters `lp` and the `#fields` flag. -/
structure Bounded (o : UserOpts) (lp : LogParams) (fieldsPending : Bool) : Prop where
  indexes : IndexesValid lp
  alloc : lp.outIndexes.length ≤ lp.outAlloc
  range : lp.idxRange ≤ lp.numFields
  slots : lp.tmpAlloc = lp.numFields + 1 ∨ lp.tmpAlloc = 0 ∧ lp.idxRange = 0 ∧ fieldsPending = false
  timeCols : o.timeconv ≠ 0 → fieldsPending = false → lp.timeCols.length = lp.idxRange

/-- The flags `find_timecol` sets from the `#types` line `t` under the parameters `lp`. -/
def typesFlags (lp : LogParams) (t : List Char) : List Bool :=
  (((cstr (t.dropLast.drop 7)).splitOn lp.ifs).take lp.idxRange).map fun f => decide (f = "time".toList)

variable {Tm : Type} (tl : TimeLib Tm)

/-- `time_cols` is empty before any `#fields` line; after one, `f`, it holds the flags of the
`#types` line `t` that followed `f`, under the parameters of the state after `f`. -/
def TimeColsFrom (o : UserOpts) (ls : List (List Char)) (lp : LogParams) : Prop :=
  (∀ l ∈ ls, classify (lineText l) ≠ .fields) ∧ lp.timeCols = [] ∨
  ∃ pre f t rest stf out err, ls = pre ++ f :: t :: rest ∧
    classify (lineText f) = .fields ∧ classify (lineText t) = .types ∧
    (∀ l ∈ rest, classify (lineText l) ≠ .fields) ∧
    exec tl o .start (pre ++ [f]) = .running stf out err ∧
    lp.idxRange = stf.lp.idxRange ∧ lp.timeCols = typesFlags stf.lp t

theorem Bounded.idxRange_le_tmpAlloc {o : UserOpts} {lp : LogParams} {p : Bool} (hb : Bounded o lp p) :
    lp.idxRange ≤ lp.tmpAlloc := by
  have := hb.range
  rcases hb.slots with h | ⟨-, h, -⟩ <;> omega

theorem Bounded.tag_slot {o : UserOpts} {lp : LogParams} (hb : Bounded o lp true) :
    lp.idxRange + 1 ≤ lp.tmpAlloc := by
  have := hb.range
  rcases hb.slots with h | ⟨-, -, -, ⟨⟩⟩
  omega

theorem bounded_init (o : UserOpts) : Bounded o RunState.init.lp RunState.init.prevFieldsLine :=
  ⟨(fun _ h => nomatch h), le_rfl, le_rfl, .inr ⟨rfl, rfl, rfl⟩, fun _ _ => rfl⟩

theorem bounded_fields (o : UserOpts) (lp : LogParams) {names : List (List Char)} (hne : names ≠ []) :
    Bounded o (fieldsParams lp o names) true :=
  ⟨fun _ hv => selection_lt_range hv, length_selection_le o names, selectionRange_le hne,
    .inl rfl, fun _ h => nomatch h⟩

theorem bounded_types {o : UserOpts} {lp lp' : LogParams} {t : List Char} (hb : Bounded o lp true)
    (h : if o.timeconv = 0 then lp' = lp else findTimecol t lp = some lp') : Bounded o lp' false := by
  have hs : lp.tmpAlloc = lp.numFields + 1 := hb.slots.resolve_right (by simp)
  split_ifs at h with h0
  · subst h
    exact ⟨hb.indexes, hb.alloc, hb.range, .inl hs, fun h _ => absurd h0 h⟩
  · rw [findTimecol_spec] at h
    split_ifs at h with hshort
    cases h
    exact ⟨hb.indexes, hb.alloc, hb.range, .inl hs, fun _ _ => by simp; omega⟩

theorem step_prevFieldsLine {o : UserOpts} {st st' : RunState} {raw : List Char}
    (hm : Moves o st raw st') : st'.prevFieldsLine = decide (classify (lineText raw) = .fields) := by
  cases hk : classify (lineText raw) <;> simp only [Moves, hk] at hm <;> simp [hm.2.1]

theorem bounded_step {o : UserOpts} {st st' : RunState} {raw : List Char}
    (hb : Bounded o st.lp st.prevFieldsLine) (hm : Moves o st raw st') :
    Bounded o st'.lp st'.prevFieldsLine := by
  cases hk : classify (lineText raw) <;> simp only [Moves, hk] at hm
  case fields =>
    obtain ⟨-, h2, h3⟩ := hm
    rw [h2, (findOutputIndexes_ok (nul_not_mem_cstr _) h3).2]
    exact bounded_fields o _ (splitOn_ne_nil _ _)
  case types =>
    obtain ⟨h1, h2, h3⟩ := hm
    rw [h1] at hb
    rw [h2]
    exact bounded_types hb h3
  all_goals
    obtain ⟨h1, h2, h3⟩ := hm
    rw [h1] at hb
    rw [h2, h3]
    exact ⟨hb.1, hb.2, hb.3, hb.4, hb.5⟩

theorem slots_of_moves {o : UserOpts} {st st' : RunState} {raw : List Char}
    (hb : Bounded o st.lp st.prevFieldsLine) (hm : Moves o st raw st')
    (hk : classify (lineText raw) = .fields ∨ classify (lineText raw) = .types) :
    st'.lp.idxRange + 1 ≤ st'.lp.tmpAlloc := by
  rcases hk with hk | hk <;> simp only [Moves, hk] at hm
  · rw [(findOutputIndexes_ok (nul_not_mem_cstr _) hm.2.2).2]
    exact Nat.succ_le_succ (selectionRange_le (splitOn_ne_nil _ _))
  · have hs := (hm.1 ▸ hb : Bounded o st.lp true).tag_slot
    have heq : st'.lp.idxRange = st.lp.idxRange ∧ st'.lp.tmpAlloc = st.lp.tmpAlloc := by
      split_ifs at hm
      · simp [hm.2.2]
      · rw [findTimecol_some hm.2.2]; exact ⟨rfl, rfl⟩
    omega

theorem undef_ne {α : Type} {x : Except Undefined α} {u : Undefined} (h : x ≠ .error u) :
    undef x ≠ .error (.undefined u) := by
  cases x <;> simp_all [undef, Except.mapError]

theorem bind_ne_error_of_ok {α β ε : Type} {x : Except ε α} {f : α → Except ε β} {e : ε}
    (hx : x ≠ .error e) (hf : ∀ a, x = .ok a → f a ≠ .error e) : x.bind f ≠ .error e := by
  cases x with
  | error e' => exact fun h => hx (by cases h; rfl)
  | ok a => exact hf a rfl

theorem findOutputIndexes_ne_outOfBounds {line : List Char} (lp : LogParams) (o : UserOpts)
    (hl : nul ∉ line) : findOutputIndexes line lp o ≠ .error .outOfBounds := by
  by_cases hs : lp.ifs = nul
  · simp [findOutputIndexes, hs, countSeps_nul hl]
  · rw [findOutputIndexes_spec line lp o hs]
    exact fun h => nomatch h

theorem updateHeader_ne_outOfBounds (o : UserOpts) (buf : List Char) (st : RunState) (k : Kind) :
    updateHeader o buf st k ≠ .error (.undefined .outOfBounds) := by
  cases k <;> simp only [updateHeader]
  case fields =>
    exact bind_ne_error_of_ok (undef_ne (findOutputIndexes_ne_outOfBounds _ o (nul_not_mem_cstr _)))
      fun _ _ h => nomatch h
  case types =>
    split_ifs
    · exact fun h => nomatch h
    · exact fun h => nomatch h
    · split <;> exact fun h => nomatch h
  all_goals exact fun h => nomatch h

/-- From a bounded state, no pass reads outside `tmp_fields`, `time_cols` or the names. -/
theorem step_ne_outOfBounds (o : UserOpts) {st : RunState} (hb : Bounded o st.lp st.prevFieldsLine)
    (raw : List Char) : step tl o st raw ≠ .error (.undefined .outOfBounds) := by
  by_cases hf : st.prevFieldsLine ∧ hasPrefix (lineText raw) "#types" = false
  · rw [step_missingTypes tl hf]; exact fun h => nomatch h
  have hpre : st.prevFieldsLine → hasPrefix (lineText raw) "#types" := fun hp => by simpa [hp] using hf
  cases hd : isHdr (lineText raw)
  · have hp := prevFieldsLine_eq_false hpre (by simp [classify_eq_data.mpr hd])
    have hslots : st.lp.idxRange + (if false = true then 1 else 0) ≤ st.lp.tmpAlloc := by
      simpa using hb.idxRange_le_tmpAlloc
    rw [step_data tl hf hd]
    refine bind_ne_error_of_ok (undef_ne (outputIndexes_ne_outOfBounds tl false _ o hslots hb.indexes
      fun h0 => ?_)) fun _ _ h => nomatch h
    rw [hb.timeCols (by simpa using h0) hp]
  · rw [step_header tl hf hd]
    refine bind_ne_error_of_ok (updateHeader_ne_outOfBounds o _ _ _) fun st' hu => ?_
    have hm := updateHeader_moves hpre (fun hk => by simp [classify_eq_data.mp hk] at hd) hu
    have hb' := bounded_step hb hm
    refine bind_ne_error_of_ok (undef_ne ?_) fun _ _ h => nomatch h
    unfold showHeader emitHeader
    split_ifs with hshow hpfx
    · have hk := (Bool.or_eq_true_iff.mp hpfx).imp classify_of_fields classify_of_types
      exact outputIndexes_ne_outOfBounds tl true _ o (by simpa using slots_of_moves hb hm hk)
        hb'.indexes (by simp)
    all_goals exact fun h => nomatch h

theorem timeColsFrom_step {o : UserOpts} {ls : List (List Char)} {st st' : RunState}
    {out : List (List Char)} {err : List Diag} {raw : List Char}
    (hrun : exec tl o .start ls = .running st out err)
    (hlast : st.prevFieldsLine = true → ∃ pre f, ls = pre ++ [f] ∧ classify (lineText f) = .fields)
    (ht : st.prevFieldsLine = false → TimeColsFrom tl o ls st.lp)
    (h0 : o.timeconv ≠ 0) (hm : Moves o st raw st') (hp' : st'.prevFieldsLine = false) :
    TimeColsFrom tl o (ls ++ [raw]) st'.lp := by
  have hkeep : classify (lineText raw) ≠ .fields → st.prevFieldsLine = false →
      st'.lp.idxRange = st.lp.idxRange → st'.lp.timeCols = st.lp.timeCols →
      TimeColsFrom tl o (ls ++ [raw]) st'.lp := fun hk hp hi htc => by
    have hall : ∀ ls', (∀ l ∈ ls', classify (lineText l) ≠ .fields) →
        ∀ l ∈ ls' ++ [raw], classify (lineText l) ≠ .fields := fun ls' h =>
      List.forall_mem_append.mpr ⟨h, by simpa using hk⟩
    rcases ht hp with ⟨hno, hnil⟩ | ⟨pre, f, t, rest, stf, out', err', rfl, hf, htt, hrest, hstf, hir, hflags⟩
    · exact .inl ⟨hall ls hno, htc.trans hnil⟩
    · exact .inr ⟨pre, f, t, rest ++ [raw], stf, out', err', by simp, hf, htt, hall rest hrest, hstf,
        hi.trans hir, htc.trans hflags⟩
  cases hk : classify (lineText raw) <;> simp only [Moves, hk] at hm
  case fields => simp [hm.2.1] at hp'
  case types =>
    obtain ⟨hp, -, hlp⟩ := hm
    obtain ⟨pre, f, rfl, hf⟩ := hlast hp
    rw [if_neg h0, findTimecol_spec] at hlp
    split_ifs at hlp
    rw [← Option.some.inj hlp]
    exact .inr ⟨pre, f, raw, [], st, out, err, by simp, hf, hk, by simp, hrun, rfl, rfl⟩
  all_goals
    obtain ⟨hp, -, hlp⟩ := hm
    exact hkeep (by simp [hk]) hp (by simp [hlp]) (by simp [hlp])

theorem bounded_of_exec (o : UserOpts) {ls : List (List Char)} {st : RunState} {out : List (List Char)}
    {err : List Diag} (h : exec tl o .start ls = .running st out err) : Bounded o st.lp st.prevFieldsLine :=
  exec_induction tl o (fun _ st => Bounded o st.lp st.prevFieldsLine) (bounded_init o)
    (fun _ _ _ _ _ _ _ _ hb hs => bounded_step hb (step_moves tl hs)) h

/-- In every state the loop reaches, whatever the stream and the options: every entry of
`out_indexes` is `-1` or below `idx_range`, the entries fit their allocation, `idx_range` is
at most `num_fields`, `tmp_fields` has `num_fields + 1` slots once a `#fields` line has been
read, and with time conversion on and no `#types` line pending, `time_cols` holds the
`idx_range` flags of the `#types` line that followed the latest `#fields` line. So no pass
from it reads outside an array. -/
theorem index_bounds_invariant (o : UserOpts) (ls : List (List Char)) {st : RunState}
    {out : List (List Char)} {err : List Diag} (h : exec tl o .start ls = .running st out err) :
    Bounded o st.lp st.prevFieldsLine ∧
      (o.timeconv ≠ 0 → st.prevFieldsLine = false → TimeColsFrom tl o ls st.lp) ∧
      ∀ raw, step tl o st raw ≠ .error (.undefined .outOfBounds) := by
  have hinv := exec_induction tl o (fun ls st => Bounded o st.lp st.prevFieldsLine ∧
      (st.prevFieldsLine = true → ∃ pre f, ls = pre ++ [f] ∧ classify (lineText f) = .fields) ∧
      (o.timeconv ≠ 0 → st.prevFieldsLine = false → TimeColsFrom tl o ls st.lp))
    ⟨bounded_init o, (fun h => nomatch h), fun _ _ => .inl ⟨(fun _ h => nomatch h), rfl⟩⟩
    (fun ls st _ _ raw st' _ hrun ⟨hb, hlast, ht⟩ hs => by
      have hm := step_moves tl hs
      refine ⟨bounded_step hb hm, fun hp' => ⟨ls, raw, rfl, ?_⟩, fun h0 hp' =>
        timeColsFrom_step tl hrun hlast (ht h0) h0 hm hp'⟩
      simpa [step_prevFieldsLine hm] using hp')
    h
  exact ⟨hinv.1, hinv.2.2, step_ne_outOfBounds tl o hinv.1⟩

/-- The invariant after a header block and a data line converted under `-d`. -/
theorem index_bounds_invariant_sample :
    ∃ st out err, exec TimeLib.stub ⟨0, false, 1, ["ts".toList], [], "%s".toList⟩ .start sampleLines =
        .running st out err ∧
      Bounded ⟨0, false, 1, ["ts".toList], [], "%s".toList⟩ st.lp st.prevFieldsLine ∧
      ((⟨0, false, 1, ["ts".toList], [], "%s".toList⟩ : UserOpts).timeconv ≠ 0 → st.prevFieldsLine = false →
        TimeColsFrom TimeLib.stub ⟨0, false, 1, ["ts".toList], [], "%s".toList⟩ sampleLines st.lp) ∧
      ∀ raw, step TimeLib.stub ⟨0, false, 1, ["ts".toList], [], "%s".toList⟩ st raw ≠ .error (.undefined .outOfBounds) :=
  ⟨_, _, _, rfl, index_bounds_invariant TimeLib.stub ⟨0, false, 1, ["ts".toList], [], "%s".toList⟩ sampleLines rfl⟩

end BroCut
