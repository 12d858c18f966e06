import BroCut.Indexes
import BroCut.Separator
import Mathlib.Data.List.GetD

/-!
# `output_indexes`

One line is split into `idx_range` fields (one more for a header line, whose first field
is its tag), then each entry of `out_indexes` is written: nothing for `-1`, a converted
timestamp for a time column of a data line, `string` for a `time` type of a `#types` line,
the field otherwise; `lp.ofs` goes between entries, and after the tag of a header line.
A line with too few fields is skipped with a diagnostic.

When `idx_range` is within the allocations and every entry is `-1` or below `idx_range`,
every read is inside its array (`outputIndexes_ne_outOfBounds`), and the line written is
the tag and the entries of a header line (`outputIndexes_header`), or the entries of a data
line, converted where they are time columns (`outputIndexes_data`), joined by the output
separator.
-/

namespace BroCut

variable {Tm : Type} (tl : TimeLib Tm)

/-- One time field: `atol`, `localtime` or `gmtime`, then `strftime` into `tbuf`; when it
returns 0, `tbuf` (indeterminate, see `TimeLib`) is cut at its last byte and a diagnostic
written. -/
def convertTime (o : UserOpts) (field : List Char) : Except Undefined (List Char × List Diag) :=
  match if o.timeconv = 1 then tl.localtime (strtol field 10) else tl.gmtime (strtol field 10) with
  | none => .error .nullTm
  | some tm =>
    let r := tl.strftime o.timefmt tm
    if r.2 then .ok (cstr r.1, []) else .ok (cstr (r.1.take (maxTimestampLen - 1)), [.truncating])

/-- What is written for one entry of `out_indexes`, the separator before it aside. -/
def outputField (o : UserOpts) (lp : LogParams) (tmp : List (List Char))
    (hdr dotimeconv dotimetypeconv : Bool) (idxval : Int) :
    Except Undefined (List Char × List Diag) :=
  if idxval = -1 then .ok ([], []) else do
    let conv ← (if dotimeconv then readAt lp.timeCols idxval else pure false)
    if conv then convertTime tl o (← readAt tmp idxval)
    else do
      let field ← readAt tmp (idxval + if hdr then 1 else 0)
      if dotimetypeconv && decide (field = "time".toList) then return ("string".toList, [])
      else return (field, [])

def outputIndexes (hdr : Bool) (line : List Char) (lp : LogParams) (o : UserOpts) :
    Except Undefined Emit :=
  let idxrange := lp.idxRange + if hdr then 1 else 0
  let dotimeconv := decide (o.timeconv ≠ 0) && !hdr
  let tmp := strsepN lp.ifs idxrange (some line)
  if lp.tmpAlloc < tmp.length then .error .outOfBounds
  else if tmp.length < idxrange then .ok ⟨[], [.skipLine]⟩
  else do
    let first ← (if hdr then readAt tmp 0 else pure [])
    let dotimetypeconv := decide (o.timeconv ≠ 0) && hdr && decide (first = "#types".toList)
    let fields ← lp.outIndexes.mapM (outputField tl o lp tmp hdr dotimeconv dotimetypeconv)
    let pieces := fields.map Prod.fst
    return ⟨[(cstr [lp.ofs]).intercalate (if hdr then first :: pieces else pieces)],
      (fields.map Prod.snd).flatten⟩

theorem convertTime_ne_outOfBounds (o : UserOpts) (field : List Char) :
    convertTime tl o field ≠ .error .outOfBounds := by
  unfold convertTime
  split
  · simp
  · dsimp only
    split_ifs <;> simp

theorem convertTime_outcome (o : UserOpts) (x : List Char) :
    ((if o.timeconv = 1 then tl.localtime (strtol x 10) else tl.gmtime (strtol x 10)).isNone →
      convertTime tl o x = .error .nullTm) ∧
    ((if o.timeconv = 1 then tl.localtime (strtol x 10) else tl.gmtime (strtol x 10)).isNone = false →
      ∃ r, convertTime tl o x = .ok r) := by
  unfold convertTime
  generalize (if o.timeconv = 1 then tl.localtime (strtol x 10) else tl.gmtime (strtol x 10)) = c
  cases c
  · exact ⟨fun _ => rfl, fun h => nomatch h⟩
  · refine ⟨(fun h => nomatch h), fun _ => ?_⟩
    dsimp only
    split_ifs <;> exact ⟨_, rfl⟩

theorem outputField_neg_one (o : UserOpts) (lp : LogParams) (tmp : List (List Char))
    (hdr dotimeconv dotimetypeconv : Bool) :
    outputField tl o lp tmp hdr dotimeconv dotimetypeconv (-1) = .ok ([], []) := rfl

theorem outputField_spec (o : UserOpts) (lp : LogParams) {tmp : List (List Char)}
    {hdr dotimeconv : Bool} (dotimetypeconv : Bool) {v : Nat}
    (hv : v < lp.idxRange) (htmp : tmp.length = lp.idxRange + if hdr then 1 else 0)
    (htc : dotimeconv → lp.idxRange ≤ lp.timeCols.length) (hh : dotimeconv → hdr = false) :
    outputField tl o lp tmp hdr dotimeconv dotimetypeconv v =
      if dotimeconv ∧ lp.timeCols.getD v false then convertTime tl o (tmp.getD v [])
      else .ok (if dotimetypeconv ∧ tmp.getD (v + if hdr then 1 else 0) [] = "time".toList
        then "string".toList else tmp.getD (v + if hdr then 1 else 0) [], []) := by
  have hfield : readAt tmp ((v : Int) + if hdr then 1 else 0) =
      .ok (tmp.getD (v + if hdr then 1 else 0) []) := by
    have hlt : v + (if hdr then 1 else 0) < tmp.length := by cases hdr <;> simp at htmp ⊢ <;> omega
    rw [show ((v : Int) + if hdr then 1 else 0) = ((v + if hdr then 1 else 0 : Nat) : Int) by
      split_ifs <;> rfl, readAt_of_lt hlt, List.getD_eq_getElem _ _ hlt]
  have hne : (v : Int) ≠ -1 := by omega
  cases dotimeconv
  · simp [outputField, hne, hfield]
    split_ifs <;> simp_all
  · obtain rfl := hh rfl
    simp only [Bool.false_eq_true, if_false, Nat.add_zero, Int.add_zero] at hfield htmp ⊢
    have hlt : v < lp.timeCols.length := Nat.lt_of_lt_of_le hv (htc rfl)
    simp only [outputField, hne, if_false, if_true, readAt_of_lt hlt, except_ok_bind, true_and,
      List.getD_eq_getElem _ _ hlt, hfield]
    by_cases ht : lp.timeCols[v] = true
    · simp [ht, readAt_of_lt (htmp ▸ hv), List.getElem?_eq_getElem (htmp ▸ hv)]
    · simp [ht, List.getElem?_eq_getElem (htmp ▸ hv)]
      split_ifs <;> rfl

theorem outputField_no_conv {Tm' : Type} (tl' : TimeLib Tm') (o : UserOpts) (lp : LogParams)
    (tmp : List (List Char)) (hdr dotimetypeconv : Bool) :
    outputField tl o lp tmp hdr false dotimetypeconv = outputField tl' o lp tmp hdr false dotimetypeconv := by
  funext v
  simp [outputField]

theorem convertTime_fits {o : UserOpts} (hfit : tl.Fits o.timefmt) {x : List Char} {r : List Char × List Diag}
    (h : convertTime tl o x = .ok r) : r.2 = [] ∧ ∃ tm, r.1 = cstr (tl.strftime o.timefmt tm).1 := by
  unfold convertTime at h
  generalize (if o.timeconv = 1 then tl.localtime (strtol x 10) else tl.gmtime (strtol x 10)) = c at h
  cases c with
  | none => cases h
  | some tm =>
    dsimp only at h
    rw [if_pos (hfit tm)] at h
    cases h
    exact ⟨rfl, tm, rfl⟩

theorem outputField_err {o : UserOpts} {lp : LogParams} {tmp : List (List Char)}
    {hdr dotimeconv dotimetypeconv : Bool} {v : Int} {r : List Char × List Diag}
    (h : outputField tl o lp tmp hdr dotimeconv dotimetypeconv v = .ok r)
    (hfit : dotimeconv → tl.Fits o.timefmt) : r.2 = [] := by
  unfold outputField at h
  split at h
  · cases h; rfl
  obtain ⟨conv, hconv, h⟩ := except_bind_eq_ok h
  cases conv
  · obtain ⟨field, -, h⟩ := except_bind_eq_ok h
    split at h <;> cases h <;> rfl
  · obtain ⟨field, -, h⟩ := except_bind_eq_ok h
    have hd : dotimeconv = true := by
      by_contra hd
      simp [hd] at hconv
    exact (convertTime_fits tl (hfit hd) h).1

/-- The text of entry `v` read from the fields `f` of a line whose first `h` fields are tags. -/
def entryText (f : List (List Char)) (h : Nat) (v : Int) : List Char :=
  if v = -1 then [] else f.getD (v.toNat + h) []

def IndexesValid (lp : LogParams) : Prop := ∀ v ∈ lp.outIndexes, v = -1 ∨ (0 ≤ v ∧ v < lp.idxRange)

theorem mapM_ne_error {α β ε : Type} {f : α → Except ε β} {e : ε} {l : List α}
    (h : ∀ x ∈ l, f x ≠ .error e) : l.mapM f ≠ .error e := by
  induction l with
  | nil => exact fun h => nomatch h
  | cons x xs ih =>
    rw [List.mapM_cons]
    have hx := h x (List.mem_cons_self _ _)
    have hr := ih fun y hy => h y (List.mem_cons_of_mem _ hy)
    cases hfx : f x with
    | error e' => rw [hfx] at hx; simpa using hx
    | ok b =>
      cases hxs : xs.mapM f with
      | error e' => rw [hxs] at hr; simpa using hr
      | ok r => simp

theorem strsepN_full {sep : Char} {line : List Char} {n : Nat}
    (hn : n ≤ (line.splitOn sep).length) :
    (strsepN sep n (some line)).length = n ∧
      ∀ i < n, (strsepN sep n (some line)).getD i [] = (line.splitOn sep).getD i [] := by
  rw [strsepN_some]
  refine ⟨by simp; omega, fun i hi => ?_⟩
  simp [List.getElem?_take, hi]

theorem length_strsepN_le (sep : Char) (n : Nat) (line : List Char) :
    (strsepN sep n (some line)).length ≤ n := by
  rw [strsepN_some, List.length_take]
  exact Nat.min_le_left _ _

theorem bind_ne_error {α β ε : Type} {x : Except ε α} {f : α → Except ε β} {e : ε}
    (hx : x ≠ .error e) (hf : ∀ a, f a ≠ .error e) : x >>= f ≠ .error e := by
  cases x with
  | error e' => simpa using hx
  | ok a => exact hf a

theorem outputField_ne_outOfBounds (o : UserOpts) (lp : LogParams) {tmp : List (List Char)}
    {hdr : Bool} (dotimetypeconv : Bool) {v : Int}
    (hv : v = -1 ∨ (0 ≤ v ∧ v < lp.idxRange)) (htmp : tmp.length = lp.idxRange + if hdr then 1 else 0)
    (htc : decide (o.timeconv ≠ 0) && !hdr → lp.idxRange ≤ lp.timeCols.length) :
    outputField tl o lp tmp hdr (decide (o.timeconv ≠ 0) && !hdr) dotimetypeconv v ≠
      .error .outOfBounds := by
  rcases hv with rfl | ⟨h0, hlt⟩
  · simp [outputField_neg_one]
  · obtain ⟨n, rfl⟩ := Int.eq_ofNat_of_zero_le h0
    rw [outputField_spec tl o lp dotimetypeconv (by omega) htmp htc (by cases hdr <;> simp)]
    split_ifs
    · exact convertTime_ne_outOfBounds tl o _
    all_goals exact fun h => nomatch h

theorem outputIndexes_ne_outOfBounds (hdr : Bool) (line : List Char) {lp : LogParams}
    (o : UserOpts) (halloc : lp.idxRange + (if hdr then 1 else 0) ≤ lp.tmpAlloc)
    (hv : IndexesValid lp)
    (htc : decide (o.timeconv ≠ 0) && !hdr → lp.idxRange ≤ lp.timeCols.length) :
    outputIndexes tl hdr line lp o ≠ .error .outOfBounds := by
  have hle := length_strsepN_le lp.ifs (lp.idxRange + if hdr then 1 else 0) line
  unfold outputIndexes
  dsimp only
  rw [if_neg (by omega)]
  by_cases hshort : (strsepN lp.ifs (lp.idxRange + if hdr then 1 else 0) (some line)).length <
      lp.idxRange + if hdr then 1 else 0
  · rw [if_pos hshort]
    exact fun h => nomatch h
  · rw [if_neg hshort]
    have hlen : (strsepN lp.ifs (lp.idxRange + if hdr then 1 else 0) (some line)).length =
        lp.idxRange + if hdr then 1 else 0 := by omega
    refine bind_ne_error ?_ fun first => bind_ne_error
      (mapM_ne_error fun v hv' => outputField_ne_outOfBounds tl o lp _ (hv v hv') hlen htc)
      fun _ => by simp
    cases hdr
    · exact fun h => nomatch h
    · rw [if_pos rfl, show ((0 : Int)) = ((0 : Nat) : Int) from rfl,
        readAt_of_lt (by rw [hlen]; simp)]
      exact fun h => nomatch h

theorem length_strsepN (sep : Char) (n : Nat) (line : List Char) :
    (strsepN sep n (some line)).length = min n (line.splitOn sep).length := by
  simp [strsepN_some]

/-- The text written for entry `v` of a header line split into `f`: the field after the
tag, or `string` for a `time` type of a `#types` line under time conversion. -/
def headerEntry (o : UserOpts) (f : List (List Char)) (v : Int) : List Char :=
  if v = -1 then []
  else if o.timeconv ≠ 0 ∧ f.getD 0 [] = "#types".toList ∧ f.getD (v.toNat + 1) [] = "time".toList
    then "string".toList
  else f.getD (v.toNat + 1) []

theorem headerEntry_cons (o : UserOpts) (tag : List Char) (f : List (List Char)) :
    headerEntry o (tag :: f) = fun v =>
      if o.timeconv ≠ 0 ∧ tag = "#types".toList ∧ entryText f 0 v = "time".toList then "string".toList
      else entryText f 0 v := by
  funext v
  by_cases hv : v = -1
  · simp [headerEntry, entryText, hv]
  · simp [headerEntry, entryText, hv]

/-- What is written for entry `v` of a data line split into `f`: the field, or its
conversion for a time column under time conversion. -/
def dataEntry (o : UserOpts) (lp : LogParams) (f : List (List Char)) (v : Int) :
    Except Undefined (List Char × List Diag) :=
  if v = -1 then .ok ([], [])
  else if o.timeconv ≠ 0 ∧ lp.timeCols.getD v.toNat false = true then convertTime tl o (f.getD v.toNat [])
  else .ok (f.getD v.toNat [], [])

theorem dataEntry_plain {o : UserOpts} (ho : o.timeconv = 0) (lp : LogParams) (f : List (List Char))
    (v : Int) : dataEntry tl o lp f v = .ok (entryText f 0 v, []) := by
  unfold dataEntry entryText
  split_ifs <;> simp_all

theorem outputIndexes_header (line : List Char) {lp : LogParams} (o : UserOpts)
    (halloc : lp.idxRange + 1 ≤ lp.tmpAlloc) (hv : IndexesValid lp) :
    outputIndexes tl true line lp o =
      .ok (if (line.splitOn lp.ifs).length < lp.idxRange + 1 then ⟨[], [.skipLine]⟩
        else ⟨[(cstr [lp.ofs]).intercalate ((line.splitOn lp.ifs).getD 0 [] ::
          lp.outIndexes.map (headerEntry o (line.splitOn lp.ifs)))], []⟩) := by
  have hle := length_strsepN lp.ifs (lp.idxRange + 1) line
  simp only [outputIndexes, if_true, Bool.not_true, Bool.and_false, Bool.and_true]
  rw [if_neg (by omega)]
  by_cases hshort : (line.splitOn lp.ifs).length < lp.idxRange + 1
  · rw [if_pos (by omega), if_pos hshort]
  · rw [if_neg (by omega), if_neg hshort]
    obtain ⟨hlen, hget⟩ := strsepN_full (Nat.le_of_not_lt hshort)
    have h0 : readAt (strsepN lp.ifs (lp.idxRange + 1) (some line)) 0 =
        .ok ((line.splitOn lp.ifs).getD 0 []) := by
      rw [show (0 : Int) = ((0 : Nat) : Int) from rfl, readAt_of_lt (by omega), ← hget 0 (by omega),
        List.getD_eq_getElem]
    rw [h0, except_ok_bind, mapM_spec (g := fun v => (headerEntry o (line.splitOn lp.ifs) v, []))]
    · simp [Function.comp_def]
    · intro v hv'
      rcases hv v hv' with rfl | ⟨h0, hlt⟩
      · rfl
      · obtain ⟨n, rfl⟩ := Int.eq_ofNat_of_zero_le h0
        rw [outputField_spec tl o lp _ (by omega) (by simpa using hlen) (by simp) (by simp)]
        have hn : ((n : Nat) : Int) ≠ -1 := by omega
        simp only [if_true, hget (n + 1) (by omega)]
        simp [headerEntry, hn, and_assoc]

/-- A data line: its entries, converted where they are time columns, joined by the output
separator; nothing when it has too few fields. -/
theorem outputIndexes_data (line : List Char) {lp : LogParams} (o : UserOpts)
    (halloc : lp.idxRange ≤ lp.tmpAlloc) (hv : IndexesValid lp)
    (htc : o.timeconv ≠ 0 → lp.idxRange ≤ lp.timeCols.length) :
    outputIndexes tl false line lp o =
      if (line.splitOn lp.ifs).length < lp.idxRange then .ok ⟨[], [.skipLine]⟩
      else (lp.outIndexes.mapM (dataEntry tl o lp (line.splitOn lp.ifs))).bind fun fs =>
        .ok ⟨[(cstr [lp.ofs]).intercalate (fs.map Prod.fst)], (fs.map Prod.snd).flatten⟩ := by
  have hle := length_strsepN lp.ifs lp.idxRange line
  simp only [outputIndexes, Bool.false_eq_true, if_false, Nat.add_zero, Bool.not_false,
    Bool.and_true, Bool.and_false, Bool.false_and, except_pure, except_ok_bind]
  rw [if_neg (by omega)]
  by_cases hshort : (line.splitOn lp.ifs).length < lp.idxRange
  · rw [if_pos (by omega), if_pos hshort]
  · rw [if_neg (by omega), if_neg hshort]
    obtain ⟨hlen, hget⟩ := strsepN_full (Nat.le_of_not_lt hshort)
    rw [mapM_congr (g := dataEntry tl o lp (line.splitOn lp.ifs)) fun v hv' => ?_]
    · rfl
    · rcases hv v hv' with rfl | ⟨h0, hlt⟩
      · rfl
      · obtain ⟨n, rfl⟩ := Int.eq_ofNat_of_zero_le h0
        rw [outputField_spec tl o lp false (by omega) (by simpa using hlen)
          (fun h => htc (by simpa using h)) (by simp)]
        have hn : ((n : Nat) : Int) ≠ -1 := by omega
        simp only [if_false, Nat.add_zero, Bool.false_eq_true, hget n (by omega)]
        simp [dataEntry, hn]

theorem outputIndexes_err {hdr : Bool} {line : List Char} {lp : LogParams} {o : UserOpts} {e : Emit}
    (h : outputIndexes tl hdr line lp o = .ok e) (hfit : o.timeconv ≠ 0 → tl.Fits o.timefmt) :
    e.err = [] ∨ e.err = [.skipLine] := by
  unfold outputIndexes at h
  dsimp only at h
  generalize (lp.idxRange + if hdr then 1 else 0) = n at h
  generalize strsepN lp.ifs n (some line) = tmp at h
  split at h
  · cases h
  split at h
  · cases h; exact .inr rfl
  obtain ⟨first, -, h⟩ := except_bind_eq_ok h
  obtain ⟨fields, hfields, h⟩ := except_bind_eq_ok h
  cases h
  refine .inl (List.flatten_eq_nil_iff.mpr fun m hm => ?_)
  obtain ⟨r, hr, rfl⟩ := List.mem_map.mp hm
  obtain ⟨v, -, hv⟩ := mem_of_mapM_ok hfields r hr
  exact outputField_err tl hv fun hd => hfit (by simp at hd; exact hd.1)

end BroCut
