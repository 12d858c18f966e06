import BroCut.Blocks

/-!
# The projection law

With time conversion off, a stream of well-formed sub-logs is written sub-log by sub-log:
the header lines when the header mode shows the block (the `#fields` and `#types` lines
projected), then one line per data line with at least `idx_range` fields, its selected
fields joined by the output separator (`projection_law`). A NUL byte inside a line ends
the C string the loop works on, so a value holding one is cut there
(`projection_law_nul_counterexample`).
-/

namespace BroCut

namespace SubLog

/-- What a data line `d` of `b` is written as: its selected fields joined by the output
separator, or nothing when it has fewer than `idx_range` fields. -/
def dataOut (o : UserOpts) (b : SubLog) (d : List Char) : List (List Char) :=
  if (d.splitOn b.sep).length < selectionRange o b.names then []
  else [[outSep o b.sep].intercalate ((selection o b.names).map (entryText (d.splitOn b.sep) 0))]

def headerOut (o : UserOpts) (b : SubLog) : List (List Char) :=
  b.sepLine :: b.others ++ [b.shownFields o, b.shownTypes o]

end SubLog

/-- What `bro_cut` writes for the sub-logs `bs` with time conversion off, when `seen` header
runs have begun before them and `hdr` says whether the line before them was a `#`-line. -/
def projectLogs (o : UserOpts) : Nat → Bool → List SubLog → List (List Char)
  | _, _, [] => []
  | seen, hdr, b :: bs =>
    let seen' := if hdr then seen else if seen < 2 then seen + 1 else seen
    ((if seen' ≤ o.showhdr then b.headerOut o else []) ++ b.data.flatMap (b.dataOut o)) ++
      projectLogs o seen' b.data.isEmpty bs

variable {Tm : Type} (tl : TimeLib Tm)

theorem enterHeader_headersSeen (st : RunState) : (enterHeader st).headersSeen =
    if st.prevLineHdr then st.headersSeen else if st.headersSeen < 2 then st.headersSeen + 1
    else st.headersSeen := by
  unfold enterHeader; split_ifs <;> rfl

theorem outputIndexes_subLog {o : UserOpts} (ho : o.timeconv = 0) {b : SubLog} (hwf : b.WellFormed)
    (lp : LogParams) (d : List Char) :
    ∃ errs, outputIndexes tl false d (b.params o lp) o = .ok ⟨b.dataOut o d, errs⟩ := by
  have hofs : cstr [outSep o b.sep] = [outSep o b.sep] := cstr_singleton (outSep_ne_nul o hwf.sep_ne_nul)
  have hr : selectionRange o b.names ≤ b.names.length := selectionRange_le (splitOn_ne_nil _ _)
  rw [outputIndexes_data tl d o (by simp; omega)
    (fun v hv => by simpa using selection_lt_range (by simpa using hv)) (fun h => absurd ho h)]
  simp only [SubLog.params_ifs, SubLog.params_ofs, SubLog.params_idxRange, SubLog.params_outIndexes, hofs,
    SubLog.dataOut]
  split_ifs
  · exact ⟨_, rfl⟩
  · rw [mapM_spec fun v _ => dataEntry_plain tl ho _ _ v]
    exact ⟨[], by simp [Function.comp_def]⟩

theorem runs_subLog {o : UserOpts} (ho : o.timeconv = 0) {b : SubLog} (hwf : b.WellFormed)
    {st : RunState} (hp : st.prevFieldsLine = false) :
    Runs tl o st (b.lines.map (· ++ ['\n']))
      ⟨b.params o st.lp, (enterHeader st).headersSeen, b.data.isEmpty, false⟩
      ((if (enterHeader st).headersSeen ≤ o.showhdr then b.headerOut o else []) ++
        b.data.flatMap (b.dataOut o)) := by
  have hc := fun l hl => hwf.clean l (by simp [SubLog.lines] at hl ⊢; tauto)
  have hd := @runs_data _ tl o ⟨b.params o st.lp, (enterHeader st).headersSeen, true, false⟩
    b.data (b.dataOut o) rfl fun d hd =>
      ⟨hwf.data d hd, (hc d (by simp [hd])).2, outputIndexes_subLog tl ho hwf _ d⟩
  refine Runs.of_eq tl (Runs.append tl (runs_header tl o hwf hp) hd) (by simp [SubLog.lines]) ?_ rfl
  cases b.data <;> rfl

theorem runs_subLogs {o : UserOpts} (ho : o.timeconv = 0) {bs : List SubLog}
    (hwf : ∀ b ∈ bs, b.WellFormed) {st : RunState} (hp : st.prevFieldsLine = false) :
    ∃ st', Runs tl o st ((bs.flatMap SubLog.lines).map (· ++ ['\n'])) st'
      (projectLogs o st.headersSeen st.prevLineHdr bs) := by
  induction bs generalizing st with
  | nil => exact ⟨st, Runs.nil tl o st⟩
  | cons b bs ih =>
    obtain ⟨st', h⟩ := @ih (fun b' hb' => hwf b' (List.mem_cons_of_mem _ hb'))
      ⟨b.params o st.lp, (enterHeader st).headersSeen, b.data.isEmpty, false⟩ rfl
    refine ⟨st', Runs.of_eq tl (Runs.append tl (runs_subLog tl ho (hwf b (List.mem_cons_self _ _)) hp) h)
      (by simp) rfl ?_⟩
    simp only [projectLogs, enterHeader_headersSeen]

/-- With time conversion off, every stream of well-formed sub-logs is processed to the end,
and what is written is, sub-log by sub-log, the header lines when the header mode shows
the block, then each data line with at least `idx_range` fields as its selected fields
joined by the output separator. -/
theorem projection_law (o : UserOpts) (ho : o.timeconv = 0) (bs : List SubLog)
    (hwf : ∀ b ∈ bs, b.WellFormed) :
    ∃ st err, broCut tl o (render (bs.flatMap SubLog.lines)) = .running st (projectLogs o 0 false bs) err := by
  obtain ⟨st', h⟩ := @runs_subLogs _ tl o ho bs hwf RunState.init rfl
  exact ⟨st', broCut_of_runs tl h fun l hl => by
    obtain ⟨b, hb, hl⟩ := List.mem_flatMap.mp hl
    exact ((hwf b hb).clean l hl).1⟩

/-- A sub-log of a connection log: two fields, one requested. -/
def sampleLog : SubLog :=
  ⟨"\\x09".toList, ["#path\tconn".toList], "ts\tuid".toList, "time\tstring".toList,
    ["1\tC1".toList, "2".toList]⟩

theorem projection_law_sample :
    sampleLog.WellFormed ∧
      ∃ st err, broCut TimeLib.stub ⟨1, false, 0, ["uid".toList], [], []⟩
        (render ([sampleLog].flatMap SubLog.lines)) =
        .running st (projectLogs ⟨1, false, 0, ["uid".toList], [], []⟩ 0 false [sampleLog]) err :=
  have hwf : sampleLog.WellFormed := ⟨by decide, by decide, by decide, by decide, by decide, by decide⟩
  ⟨hwf, projection_law TimeLib.stub ⟨1, false, 0, ["uid".toList], [], []⟩ rfl [sampleLog]
    fun b hb => by rw [List.mem_singleton.mp hb]; exact hwf⟩

/-- A value holding a NUL byte: the law writes the line, the loop cuts it at the NUL, finds
one field where the header declared two, and skips it. -/
theorem projection_law_nul_counterexample :
    (broCut TimeLib.stub ⟨0, false, 0, [], [], []⟩
      (render (SubLog.lines ⟨"\\x09".toList, [], "a\tb".toList, "string\tstring".toList,
        ["x\x00\ty".toList]⟩))).stdout = [] ∧
    projectLogs ⟨0, false, 0, [], [], []⟩ 0 false
      [⟨"\\x09".toList, [], "a\tb".toList, "string\tstring".toList, ["x\x00\ty".toList]⟩] =
      ["x\x00\ty".toList] := by
  decide

end BroCut
