import BroCut.Recut

/-!
# Selecting every column

With no column requested `find_output_indexes` selects every field in order. With every
header block shown, no output separator and no time conversion, `bro_cut` then writes a
well-formed log back byte for byte, provided each data line has as many fields as its
`#fields` line has names (`all_columns_identity`); a line with fewer is skipped, and one with
more loses the fields past the last name.
-/

namespace BroCut

theorem entryText_range (f : List (List Char)) :
    ((List.range f.length).map Int.ofNat).map (entryText f 0) = f := by
  apply List.ext_getElem (by simp)
  intro i _ h
  simp [List.getElem?_eq_getElem h]

section AllColumns

variable {o : UserOpts} (hcols : o.columns = []) (hofs : o.ofs.headD nul = nul)
include hcols hofs

theorem shownFields_all (b : SubLog) : b.shownFields o = b.fieldsLine := by
  rw [SubLog.shownFields, selection, if_pos hcols, entryText_range, outSep_of_headD hofs, SubLog.names,
    intercalate_cons_ne _ _ (splitOn_ne_nil _ _), List.intercalate_splitOn]
  rfl

theorem shownTypes_all (ho : o.timeconv = 0) {b : SubLog} (hwf : b.WellFormed) :
    b.shownTypes o = b.typesLine := by
  have hplain : (fun v => if o.timeconv ≠ 0 ∧ entryText b.types 0 v = "time".toList then "string".toList
      else entryText b.types 0 v) = entryText b.types 0 := by
    funext v
    simp [ho]
  rw [SubLog.shownTypes, hplain, selection, if_pos hcols, ← hwf.types_length, entryText_range,
    outSep_of_headD hofs, SubLog.types, intercalate_cons_ne _ _ (splitOn_ne_nil _ _), List.intercalate_splitOn]
  rfl

theorem dataOut_all (b : SubLog) {d : List Char} (hd : (d.splitOn b.sep).length = b.names.length) :
    b.dataOut o d = [d] := by
  rw [SubLog.dataOut, selectionRange, if_pos hcols, if_neg (by omega), selection, if_pos hcols, ← hd,
    entryText_range, outSep_of_headD hofs, List.intercalate_splitOn]

/-- With every block shown, what `bro_cut` writes for well-formed sub-logs whose data lines
have one field per name is the sub-logs' own lines. -/
theorem projectLogs_all (hshow : o.showhdr = 2) (ho : o.timeconv = 0) {bs : List SubLog}
    (hwf : ∀ b ∈ bs, b.WellFormed) (hlen : ∀ b ∈ bs, ∀ d ∈ b.data, (d.splitOn b.sep).length = b.names.length) :
    ∀ seen ≤ 2, ∀ hdr, projectLogs o seen hdr bs = bs.flatMap SubLog.lines := by
  induction bs with
  | nil => intros; rfl
  | cons b bs ih =>
    intro seen hs hdr
    have hb := List.mem_cons_self b bs
    have hs' : (if hdr then seen else if seen < 2 then seen + 1 else seen) ≤ 2 := by split_ifs <;> omega
    have hdata : b.data.flatMap (b.dataOut o) = b.data :=
      flatMap_of_singleton fun d hd => dataOut_all hcols hofs b (hlen b hb d hd)
    rw [projectLogs, if_pos (hshow ▸ hs'), ih (fun b' h => hwf b' (List.mem_cons_of_mem _ h))
      (fun b' h => hlen b' (List.mem_cons_of_mem _ h)) _ hs', hdata]
    simp [SubLog.headerOut, SubLog.lines, shownFields_all hcols hofs, shownTypes_all hcols hofs ho (hwf b hb)]

end AllColumns

variable {Tm : Type} (tl : TimeLib Tm)

/-- Selecting every column is the identity on well-formed logs: with no column requested,
every header block shown (`-C`), no `-F` and no time conversion, `bro_cut` reads a log of
well-formed sub-logs whose data lines have one field per name to the end, returns 0, and
writes exactly what it read. -/
theorem all_columns_identity (o : UserOpts) (hshow : o.showhdr = 2) (hcols : o.columns = [])
    (hofs : o.ofs.headD nul = nul) (ho : o.timeconv = 0) (bs : List SubLog) (hwf : ∀ b ∈ bs, b.WellFormed)
    (hlen : ∀ b ∈ bs, ∀ d ∈ b.data, (d.splitOn b.sep).length = b.names.length) :
    (broCut tl o (render (bs.flatMap SubLog.lines))).stdout = render (bs.flatMap SubLog.lines) ∧
      (broCut tl o (render (bs.flatMap SubLog.lines))).status = some 0 := by
  obtain ⟨st', h⟩ := @runs_subLogs _ tl o ho bs hwf RunState.init rfl
  obtain ⟨err, hrun⟩ := broCut_of_runs tl h fun l hl => by
    obtain ⟨b, hb, hl⟩ := List.mem_flatMap.mp hl
    exact ((hwf b hb).clean l hl).1
  rw [hrun, projectLogs_all hcols hofs hshow ho hwf hlen _ (by decide) _]
  exact ⟨rfl, rfl⟩

/-- A sub-log of a connection log with two data lines, under `-C`. -/
theorem all_columns_identity_sample :
    (broCut TimeLib.stub ⟨2, false, 0, [], [], []⟩ (render ([(⟨"\\x09".toList, ["#path\tconn".toList],
        "ts\tuid".toList, "time\tstring".toList, ["1\tC1".toList, "2\tC2".toList]⟩ : SubLog)].flatMap
          SubLog.lines))).stdout =
      render ([(⟨"\\x09".toList, ["#path\tconn".toList], "ts\tuid".toList, "time\tstring".toList,
        ["1\tC1".toList, "2\tC2".toList]⟩ : SubLog)].flatMap SubLog.lines) :=
  have hwf : SubLog.WellFormed ⟨"\\x09".toList, ["#path\tconn".toList], "ts\tuid".toList,
      "time\tstring".toList, ["1\tC1".toList, "2\tC2".toList]⟩ :=
    ⟨by decide, by decide, by decide, by decide, by decide, by decide⟩
  (all_columns_identity TimeLib.stub ⟨2, false, 0, [], [], []⟩ rfl rfl rfl rfl _
    (fun b hb => by rw [List.mem_singleton.mp hb]; exact hwf)
    (fun b hb => by rw [List.mem_singleton.mp hb]; decide)).1

end BroCut
