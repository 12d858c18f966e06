import Mathlib.Data.List.Nodup
import BroCut.Recut

/-!
# Leaving columns out

`-n` makes `find_output_indexes` keep, in field order, every field whose name is not
requested. On sub-logs that all declare the same distinct names, that is the complement of
the request: `-n C` writes what naming the other names in field order writes
(`negate_complement`), as long as some name is left. With a name declared twice the two
differ, since a requested name resolves to its first position only.
-/

namespace BroCut

theorem firstIndex_getD {names : List (List Char)} (hnd : names.Nodup) {i : Nat} (hi : i < names.length) :
    firstIndex names (names.getD i []) = i := by
  have hget : names.getD i [] = names[i] := by simp [List.getElem?_eq_getElem hi]
  obtain ⟨j, hj, hjl, hjget⟩ := firstIndex_spec (hget ▸ List.getElem_mem hi)
  have hji : j = i := hnd.getElem_inj_iff.mp (by simpa [List.getElem?_eq_getElem hjl, List.getElem?_eq_getElem hi] using hjget)
  rw [hj, hji]

/-- The names of `names` that are not in `C`, resolved one by one, are the positions `-n C`
keeps. -/
theorem map_firstIndex_filter {names : List (List Char)} (hnd : names.Nodup) (C : List (List Char)) :
    (names.filter (· ∉ C)).map (firstIndex names) =
      ((List.range names.length).filter fun i => names.getD i [] ∉ C).map Int.ofNat := by
  have hN : (List.range names.length).map (fun i => names.getD i []) = names :=
    List.ext_getElem (by simp) fun i _ h => by simp [List.getElem?_eq_getElem h]
  calc (names.filter (· ∉ C)).map (firstIndex names)
      = ((((List.range names.length).map fun i => names.getD i []).filter (· ∉ C)).map (firstIndex names)) := by
        rw [hN]
    _ = ((((List.range names.length).filter fun i => names.getD i [] ∉ C).map fun i => names.getD i []).map
          (firstIndex names)) := by
        rw [List.filter_map]
        rfl
    _ = ((List.range names.length).filter fun i => names.getD i [] ∉ C).map Int.ofNat := by
        rw [List.map_map]
        exact List.map_congr_left fun i hi =>
          firstIndex_getD hnd (List.mem_range.mp (List.mem_filter.mp hi).1)

theorem foldl_max_range (n : Nat) : (List.range n).foldl max 0 = n - 1 := by
  induction n with
  | zero => rfl
  | succ n ih =>
    rw [List.range_succ, List.foldl_append, ih]
    simp only [List.foldl_cons, List.foldl_nil]
    omega

section Complement

variable {o : UserOpts} {names : List (List Char)} (hrest : names.filter (· ∉ o.columns) ≠ [])
include hrest

theorem selection_negate (hnd : names.Nodup) :
    selection { o with negate := true } names =
      selection { o with negate := false, columns := names.filter (· ∉ o.columns) } names := by
  by_cases hc : o.columns = []
  · have hn : names ≠ [] := by simpa [hc] using hrest
    simpa [selection, hc, hn] using (map_firstIndex_filter hnd []).symm
  · simp only [selection, if_neg hc, if_neg hrest, Bool.not_true, Bool.not_false]
    exact (map_firstIndex_filter hnd o.columns).symm

theorem selectionRange_negate (hnd : names.Nodup) :
    selectionRange { o with negate := true } names =
      selectionRange { o with negate := false, columns := names.filter (· ∉ o.columns) } names := by
  rw [selectionRange, selectionRange, if_neg hrest, ← selection_negate hrest hnd]
  by_cases hc : o.columns = []
  · have hn : names ≠ [] := by simpa [hc] using hrest
    simp only [if_pos hc, selection, foldl_max_natCast_zero, foldl_max_range]
    have := List.length_pos.mpr hn
    omega
  · rw [if_neg hc]

end Complement

theorem projectLogs_congr {o o' : UserOpts} (hshow : o.showhdr = o'.showhdr) (hofs : o.ofs = o'.ofs)
    (htc : o.timeconv = o'.timeconv) {bs : List SubLog}
    (hsel : ∀ b ∈ bs, selection o b.names = selection o' b.names ∧
      selectionRange o b.names = selectionRange o' b.names) :
    ∀ seen hdr, projectLogs o seen hdr bs = projectLogs o' seen hdr bs := by
  induction bs with
  | nil => intros; rfl
  | cons b bs ih =>
    intro seen hdr
    obtain ⟨hs, hr⟩ := hsel b (List.mem_cons_self b bs)
    have hd : b.dataOut o = b.dataOut o' := by
      funext d
      simp only [SubLog.dataOut, outSep, hofs, hs, hr]
    simp only [projectLogs, SubLog.headerOut, SubLog.shownFields, SubLog.shownTypes, outSep, hd,
      hshow, hofs, htc, hs, ih fun b' h => hsel b' (List.mem_cons_of_mem _ h)]

variable {Tm : Type} (tl : TimeLib Tm)

/-- On well-formed sub-logs that all declare the distinct names `N`, with time conversion off,
`-n` with the column list `C` (empty or not) writes what the column list of the names of `N`
not in `C`, in field order, writes, provided there is one, and both runs read the log to the
end. -/
theorem negate_complement (o : UserOpts) (ho : o.timeconv = 0) (N : List (List Char))
    (hnd : N.Nodup) (hrest : N.filter (· ∉ o.columns) ≠ []) (bs : List SubLog) (hwf : ∀ b ∈ bs, b.WellFormed)
    (hN : ∀ b ∈ bs, b.names = N) :
    (broCut tl { o with negate := true } (render (bs.flatMap SubLog.lines))).stdout =
        (broCut tl { o with negate := false, columns := N.filter (· ∉ o.columns) }
          (render (bs.flatMap SubLog.lines))).stdout ∧
      (broCut tl { o with negate := true } (render (bs.flatMap SubLog.lines))).status = some 0 ∧
      (broCut tl { o with negate := false, columns := N.filter (· ∉ o.columns) }
          (render (bs.flatMap SubLog.lines))).status = some 0 := by
  have hclean : ∀ l ∈ bs.flatMap SubLog.lines, '\n' ∉ l := fun l hl => by
    obtain ⟨b, hb, hl⟩ := List.mem_flatMap.mp hl
    exact ((hwf b hb).clean l hl).1
  obtain ⟨st, h⟩ := @runs_subLogs _ tl { o with negate := true } ho bs hwf RunState.init rfl
  obtain ⟨st', h'⟩ := @runs_subLogs _ tl { o with negate := false, columns := N.filter (· ∉ o.columns) }
    ho bs hwf RunState.init rfl
  obtain ⟨err, hrun⟩ := broCut_of_runs tl h hclean
  obtain ⟨err', hrun'⟩ := broCut_of_runs tl h' hclean
  rw [hrun, hrun', @projectLogs_congr { o with negate := true } { o with negate := false, columns := N.filter (· ∉ o.columns) }
    rfl rfl rfl _ fun b hb => by
      rw [hN b hb]; exact ⟨selection_negate hrest hnd, selectionRange_negate hrest hnd⟩]
  exact ⟨rfl, rfl, rfl⟩

/-- A connection log with three distinct names, leaving out `uid`. -/
theorem negate_complement_sample :
    (broCut TimeLib.stub ⟨0, true, 0, ["uid".toList], [], []⟩ (render ([(⟨"\\x09".toList, [],
        "ts\tuid\tid".toList, "time\tstring\tcount".toList, ["1\tC1\t7".toList]⟩ : SubLog)].flatMap
          SubLog.lines))).stdout =
      (broCut TimeLib.stub ⟨0, false, 0, ["ts".toList, "id".toList], [], []⟩ (render ([(⟨"\\x09".toList, [],
        "ts\tuid\tid".toList, "time\tstring\tcount".toList, ["1\tC1\t7".toList]⟩ : SubLog)].flatMap
          SubLog.lines))).stdout :=
  have hwf : SubLog.WellFormed ⟨"\\x09".toList, [], "ts\tuid\tid".toList, "time\tstring\tcount".toList,
      ["1\tC1\t7".toList]⟩ :=
    ⟨by decide, by decide, by decide, by decide, by decide, by decide⟩
  (negate_complement TimeLib.stub ⟨0, false, 0, ["uid".toList], [], []⟩ rfl
    ["ts".toList, "uid".toList, "id".toList] (by decide) (by decide) _
    (fun b hb => by rw [List.mem_singleton.mp hb]; exact hwf)
    (fun b hb => by rw [List.mem_singleton.mp hb]; decide)).1

end BroCut
