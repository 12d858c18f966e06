import BroCut.Blocks

/-!
# Time types and time values

Under time conversion `find_timecol` flags the `time` entries of the `#types` payload after
its 7-byte prefix, and `output_indexes` rewrites a `time` entry of a shown `#types` line,
which it splits whole, tag included. For a `#fields` line and the `#types` line after it
written as tag, separator and entries, the two agree: position `j` of the shown `#types`
line reads `string` exactly when its column is flagged, which is exactly when the value at
position `j` of every data line of the sub-log is converted (`time_types_agree`). A header
line is never converted: what `output_indexes` writes for it does not depend on the
calendar.
-/

namespace BroCut

def shownType (t : List Char) : List Char := if t = "time".toList then "string".toList else t

/-- Two parameter sets select and convert the same columns. -/
def SameSelection (lp lp' : LogParams) : Prop :=
  lp'.outIndexes = lp.outIndexes ∧ lp'.idxRange = lp.idxRange ∧ lp'.timeCols = lp.timeCols ∧
    lp'.tmpAlloc = lp.tmpAlloc

variable {Tm : Type} (tl : TimeLib Tm)

/-- What is written for entry `v` of a data line with the fields `f`, by the declared
`types`: the field converted when its type is `time`. -/
def convertedEntry (o : UserOpts) (types f : List (List Char)) (v : Int) :
    Except Undefined (List Char × List Diag) :=
  if v = -1 then .ok ([], [])
  else if types.getD v.toNat [] = "time".toList then convertTime tl o (f.getD v.toNat [])
  else .ok (f.getD v.toNat [], [])

theorem outputIndexes_header_calendar {Tm' : Type} (tl' : TimeLib Tm') (line : List Char)
    (lp : LogParams) (o : UserOpts) : outputIndexes tl true line lp o = outputIndexes tl' true line lp o := by
  simp only [outputIndexes, Bool.not_true, Bool.and_false, outputField_no_conv tl tl']

theorem exec_keeps_selection (o : UserOpts) {st st' : RunState} {out out' : List (List Char)}
    {err err' : List Diag} {ls : List (List Char)} (hp : st.prevFieldsLine = false)
    (hls : ∀ l ∈ ls, classify (lineText l) ≠ .fields)
    (h : exec tl o (.running st out err) ls = .running st' out' err') :
    st'.prevFieldsLine = false ∧ SameSelection st.lp st'.lp := by
  induction ls using List.reverseRecOn generalizing st' out' err' with
  | nil => cases h; exact ⟨hp, rfl, rfl, rfl, rfl⟩
  | append_singleton ls raw ih =>
    obtain ⟨st₀, out₀, err₀, e, h₀, hs, -, -⟩ := exec_snoc_running tl h
    obtain ⟨hp₀, h1, h2, h3, h4⟩ := ih (fun l hl => hls l (List.mem_append_left _ hl)) h₀
    have hk := hls raw (List.mem_append_right _ (List.mem_singleton_self _))
    have hm := step_moves tl hs
    cases hk' : classify (lineText raw) <;> simp only [Moves, hk'] at hm
    case fields => exact absurd hk' hk
    case types => simp [hp₀] at hm
    case separator =>
      obtain ⟨-, hp', hlp⟩ := hm
      exact ⟨hp', by simp [hlp, h1], by simp [hlp, h2], by simp [hlp, h3], by simp [hlp, h4]⟩
    all_goals
      obtain ⟨-, hp', hlp⟩ := hm
      exact ⟨hp', by rw [hlp, h1], by rw [hlp, h2], by rw [hlp, h3], by rw [hlp, h4]⟩

theorem typesParams_timeCols {o : UserOpts} (h0 : o.timeconv ≠ 0) (lp : LogParams)
    {types : List (List Char)} (hlen : lp.idxRange ≤ types.length) {v : Nat} (hv : v < lp.idxRange) :
    (typesParams o lp types).timeCols.getD v false = decide (types.getD v [] = "time".toList) := by
  simp [typesParams, h0, hv, Nat.lt_of_lt_of_le hv hlen, List.getElem?_take]

@[simp] theorem entryText_natCast (f : List (List Char)) (k i : Nat) :
    entryText f k i = f.getD (i + k) [] := by
  have hne : ((i : Nat) : Int) ≠ -1 := by omega
  rw [entryText, if_neg hne, Int.toNat_ofNat]

/-- Under the parameters a `#types` line leaves, an entry of a data line is converted exactly
when time conversion is on and its declared type is `time`. -/
theorem dataEntry_typesParams (o : UserOpts) {lp : LogParams} {types : List (List Char)}
    (hlen : lp.idxRange ≤ types.length) (f : List (List Char)) {v : Int}
    (hv : v = -1 ∨ (0 ≤ v ∧ v < lp.idxRange)) :
    dataEntry tl o (typesParams o lp types) f v =
      if o.timeconv ≠ 0 ∧ entryText types 0 v = "time".toList then convertTime tl o (entryText f 0 v)
      else .ok (entryText f 0 v, []) := by
  rcases hv with rfl | ⟨h0, hlt⟩
  · simp [dataEntry, entryText]
  · obtain ⟨n, rfl⟩ := Int.eq_ofNat_of_zero_le h0
    have hn : ((n : Nat) : Int) ≠ -1 := by omega
    by_cases htc : o.timeconv = 0
    · simp [dataEntry, htc, hn]
    · simp only [dataEntry, if_neg hn, Int.toNat_ofNat, ne_eq, htc, not_false_eq_true, true_and,
        typesParams_timeCols htc lp hlen (by omega : n < lp.idxRange), decide_eq_true_eq,
        entryText_natCast, Nat.add_zero]

/-- Under time conversion, a `#fields` line and the `#types` line after it, written as tag,
separator and entries: the shown `#types` line reads `string` at position `j` exactly when
the type of its column is `time`, `time_cols` flags exactly those columns, and every data line
read before the next `#fields` line has exactly those values converted; no header line is
converted. A `#types` line with fewer than `idx_range` entries is fatal. -/
theorem time_types_agree (o : UserOpts) (h0 : o.timeconv ≠ 0) {st : RunState} {s : Char}
    (hp : st.prevFieldsLine = false) (hifs : st.lp.ifs = s) (fieldsText typesText : List Char)
    (hf : nul ∉ "#fields".toList ++ s :: fieldsText) (ht : nul ∉ "#types".toList ++ s :: typesText)
    (hsf : s ∉ "#fields".toList) (hst : s ∉ "#types".toList) :
    ∃ st₁ e₁, step tl o st (("#fields".toList ++ s :: fieldsText) ++ ['\n']) = .ok (st₁, e₁) ∧
      ((typesText.splitOn s).length < selectionRange o (fieldsText.splitOn s) →
        step tl o st₁ (("#types".toList ++ s :: typesText) ++ ['\n']) = .error (.fatal .fewTypes)) ∧
      (selectionRange o (fieldsText.splitOn s) ≤ (typesText.splitOn s).length →
        ∃ st₂ e₂, step tl o st₁ (("#types".toList ++ s :: typesText) ++ ['\n']) = .ok (st₂, e₂) ∧
        e₂.out = (if (enterHeader st).headersSeen ≤ o.showhdr then
          [(cstr [st.lp.ofs]).intercalate ("#types".toList :: (selection o (fieldsText.splitOn s)).map
            fun v => if v = -1 then [] else shownType ((typesText.splitOn s).getD v.toNat []))]
          else []) ∧
        (∀ v < selectionRange o (fieldsText.splitOn s),
          st₂.lp.timeCols.getD v false = decide ((typesText.splitOn s).getD v [] = "time".toList)) ∧
        ∀ ls st₃ out err, (∀ l ∈ ls, classify (lineText l) ≠ .fields) →
          exec tl o (.running st₂ [] []) ls = .running st₃ out err → ∀ d,
          outputIndexes tl false d st₃.lp o =
            if (d.splitOn st₃.lp.ifs).length < selectionRange o (fieldsText.splitOn s) then
              .ok ⟨[], [.skipLine]⟩
            else ((selection o (fieldsText.splitOn s)).mapM
              (convertedEntry tl o (typesText.splitOn s) (d.splitOn st₃.lp.ifs))).bind fun fs =>
                .ok ⟨[(cstr [st₃.lp.ofs]).intercalate (fs.map Prod.fst)], (fs.map Prod.snd).flatten⟩) ∧
      ∀ (Tm' : Type) (tl' : TimeLib Tm') line lp, outputIndexes tl true line lp o = outputIndexes tl' true line lp o := by
  subst hifs
  have hne := splitOn_ne_nil st.lp.ifs fieldsText
  refine ⟨_, _, step_fieldsLine tl o rfl hf hsf hp, fun hshort => step_typesLine_short tl h0 rfl ht rfl hshort,
    fun hlen => ?_, fun _ tl' line lp => outputIndexes_header_calendar tl tl' line lp o⟩
  refine ⟨_, _, @step_typesLine _ tl o ⟨fieldsParams st.lp o (fieldsText.splitOn st.lp.ifs),
    (enterHeader st).headersSeen, (enterHeader st).prevLineHdr, true⟩ st.lp.ifs typesText rfl ht hst
    (bounded_fields o st.lp hne) rfl (by simp) hlen, ?_, fun v hv => typesParams_timeCols h0 _ hlen hv, ?_⟩
  · simp only [fieldsParams, headerEntry_cons, ne_eq, h0, not_false_eq_true, true_and]
    split_ifs
    · congr 3
      refine List.map_congr_left fun v _ => ?_
      by_cases hv : v = -1 <;> simp [entryText, shownType, hv]
    · rfl
  · intro ls st₃ out err hls hrun d
    obtain ⟨hp₃, h1, h2, h3, h4⟩ := exec_keeps_selection tl o rfl hls hrun
    have hb := bounded_fields o st.lp hne
    have hr := selectionRange_le (o := o) hne
    rw [outputIndexes_data tl d o (by simp [h2, h4, fieldsParams]; omega)
      (by simpa [IndexesValid, h1, h2] using hb.indexes)
      (fun _ => by simp [h2, h3, typesParams, h0, fieldsParams, hlen])]
    simp only [h1, h2, typesParams_outIndexes, typesParams_idxRange, fieldsParams]
    split_ifs
    · rfl
    · rw [mapM_congr fun v hv => ?_]
      rcases selection_lt_range hv with rfl | ⟨hv0, hvr⟩
      · rfl
      · have hv' : v ≠ -1 := by omega
        simp only [dataEntry, convertedEntry, hv', if_false, ne_eq, h0, not_false_eq_true, true_and, h3]
        rw [typesParams_timeCols h0 _ hlen (by simp [fieldsParams]; omega)]
        simp

theorem time_types_agree_sample :
    (⟨0, false, 1, [], [], []⟩ : UserOpts).timeconv ≠ 0 ∧ RunState.init.prevFieldsLine = false ∧
      nul ∉ "#fields".toList ++ '\t' :: "ts\tuid".toList ∧ nul ∉ "#types".toList ++ '\t' :: "time\tstring".toList ∧
      '\t' ∉ "#fields".toList ∧ '\t' ∉ "#types".toList ∧
      ∃ st₁ e₁, step TimeLib.stub ⟨0, false, 1, [], [], []⟩ RunState.init
        (("#fields".toList ++ '\t' :: "ts\tuid".toList) ++ ['\n']) = .ok (st₁, e₁) :=
  have h := time_types_agree TimeLib.stub ⟨0, false, 1, [], [], []⟩ (by decide) rfl rfl
    "ts\tuid".toList "time\tstring".toList (by decide) (by decide) (by decide) (by decide)
  ⟨by decide, rfl, by decide, by decide, by decide, by decide, h.elim fun st₁ h => h.elim fun e₁ h => ⟨st₁, e₁, h.1⟩⟩

end BroCut
