import BroCut.Status

/-!
# Times the calendar cannot break down

`localtime` and `gmtime` return NULL when the year of a time does not fit in the `int`
field `tm_year` of `struct tm` (years since 1900): the C library fails with `EOVERFLOW`
there. The calendar is a parameter of the model; `yearFits` is that range, and
`TimeLib.utcRange` a calendar in UTC that keeps to it.

`output_indexes` hands the result of `localtime` or `gmtime` to `strftime` without a test.
Under time conversion a data line is therefore undefined exactly when one of its selected
time columns holds a value with no broken-down time (`nullTime`), and is written as one
line otherwise (`null_time_undefined`).

The calendar is read only through the conversion of a time column of a data line. Without
time conversion no run depends on it; under `-u` `localtime` is never consulted, and under
`-d` `gmtime` is never consulted (`calendar_reach`).
-/

namespace BroCut

/-- The year of day `z` counted from 1970-01-01 in the proleptic Gregorian calendar: eras of
400 years (146097 days) that start on 1 March of a year divisible by 400, and the year within
the era, moved on by one for January and February. -/
def civilYear (z : Int) : Int :=
  let z := z + 719468
  let doe := z % 146097
  let yoe := (doe - doe / 1460 + doe / 36524 - doe / 146096) / 365
  let mp := (5 * (doe - (365 * yoe + yoe / 4 - yoe / 100)) + 2) / 153
  z / 146097 * 400 + yoe + if mp < 10 then 0 else 1

/-- Whether the year of `t` seconds after the epoch, in UTC, fits in `tm_year`. -/
def yearFits (t : Int) : Bool :=
  decide (-2147483648 ≤ civilYear (t / 86400) - 1900 ∧ civilYear (t / 86400) - 1900 ≤ 2147483647)

example : civilYear 0 = 1970 ∧ civilYear (951782400 / 86400) = 2000 ∧ civilYear (-1 / 86400) = 1969 := by
  decide

example : yearFits 67768036191676799 = true ∧ yearFits 67768036191676800 = false ∧
    yearFits (-67768040609740800) = true ∧ yearFits (-67768040609740801) = false := by
  decide

/-- The C library in UTC as far as its range goes: `localtime` and `gmtime` return NULL
exactly for the times whose year does not fit in `tm_year`. A broken-down time is kept as the
second it stands for, and every time is written as `T`. -/
def TimeLib.utcRange : TimeLib Int :=
  ⟨fun t => if yearFits t then some t else none, fun t => if yearFits t then some t else none,
    fun _ _ => (['T'], true)⟩

variable {Tm : Type} (tl : TimeLib Tm)

/-- Entry `v` of a data line split into `f` is a time column whose value `localtime` or
`gmtime` returns NULL for. -/
def nullTime (o : UserOpts) (lp : LogParams) (f : List (List Char)) (v : Int) : Bool :=
  decide (v ≠ -1) && lp.timeCols.getD v.toNat false &&
    (if o.timeconv = 1 then tl.localtime (strtol (f.getD v.toNat []) 10)
      else tl.gmtime (strtol (f.getD v.toNat []) 10)).isNone

theorem dataEntry_nullTime {o : UserOpts} (h0 : o.timeconv ≠ 0) (lp : LogParams)
    (f : List (List Char)) (v : Int) :
    (nullTime tl o lp f v → dataEntry tl o lp f v = .error .nullTm) ∧
    (nullTime tl o lp f v = false → ∃ r, dataEntry tl o lp f v = .ok r) := by
  by_cases hv : v = -1
  · simp [nullTime, dataEntry, hv]
  have hn : nullTime tl o lp f v = (lp.timeCols.getD v.toNat false &&
      (if o.timeconv = 1 then tl.localtime (strtol (f.getD v.toNat []) 10)
        else tl.gmtime (strtol (f.getD v.toNat []) 10)).isNone) := by
    simp only [nullTime, hv, ne_eq, not_false_eq_true, decide_True, Bool.true_and]
  unfold dataEntry
  rw [hn, if_neg hv]
  cases lp.timeCols.getD v.toNat false
  · exact ⟨(fun h => nomatch h), fun _ => ⟨_, if_neg (by simp)⟩⟩
  · simp only [Bool.true_and, ne_eq, h0, not_false_eq_true, and_self, if_true]
    exact convertTime_outcome tl o _

theorem mapM_eq_error {α β ε : Type} {f : α → Except ε β} {e : ε} {l : List α}
    (hall : ∀ x ∈ l, f x = .error e ∨ ∃ b, f x = .ok b) (hx : ∃ x ∈ l, f x = .error e) :
    l.mapM f = .error e := by
  induction l with
  | nil => obtain ⟨x, hx, -⟩ := hx; cases hx
  | cons y ys ih =>
    rw [List.mapM_cons]
    rcases hall y (List.mem_cons_self _ _) with hy | ⟨b, hy⟩
    · rw [hy]; rfl
    obtain ⟨x, hx, hfx⟩ := hx
    rcases List.mem_cons.mp hx with rfl | hx
    · rw [hfx] at hy; cases hy
    · rw [hy, ih (fun z hz => hall z (List.mem_cons_of_mem _ hz)) ⟨x, hx, hfx⟩]; rfl

/-- Under time conversion and the bounds of a state expecting no `#types` line, a data line
with `idx_range` fields is undefined when one of its selected time values has no broken-down
time, and is written as one line otherwise. -/
theorem outputIndexes_nullTime {o : UserOpts} (h0 : o.timeconv ≠ 0) {lp : LogParams}
    (hb : Bounded o lp false) {line : List Char} (hlen : lp.idxRange ≤ (line.splitOn lp.ifs).length) :
    (lp.outIndexes.any (nullTime tl o lp (line.splitOn lp.ifs)) →
      outputIndexes tl false line lp o = .error .nullTm) ∧
    (lp.outIndexes.any (nullTime tl o lp (line.splitOn lp.ifs)) = false →
      ∃ l errs, outputIndexes tl false line lp o = .ok ⟨[l], errs⟩) := by
  rw [outputIndexes_data tl line o hb.idxRange_le_tmpAlloc hb.indexes fun h0 => (hb.timeCols h0 rfl).ge,
    if_neg (by omega)]
  have he := dataEntry_nullTime tl h0 lp (line.splitOn lp.ifs)
  refine ⟨fun hany => ?_, fun hnone => ?_⟩
  · obtain ⟨v, hv, hn⟩ := List.any_eq_true.mp hany
    rw [mapM_eq_error (fun x _ => ?_) ⟨v, hv, (he v).1 hn⟩]
    · rfl
    · cases hx : nullTime tl o lp (line.splitOn lp.ifs) x
      · exact .inr ((he x).2 hx)
      · exact .inl ((he x).1 hx)
  · obtain ⟨fs, hfs⟩ := mapM_exists_ok (f := dataEntry tl o lp (line.splitOn lp.ifs)) fun v hv =>
      (he v).2 (by simpa using List.any_eq_false.mp hnone v hv)
    exact ⟨_, _, by rw [hfs]; rfl⟩

theorem outputIndexes_error {o : UserOpts} {lp : LogParams} (hb : Bounded o lp false) (line : List Char)
    {u : Undefined} (h : outputIndexes tl false line lp o = .error u) : u = .nullTm := by
  by_cases h0 : o.timeconv = 0
  · obtain ⟨e, he⟩ := outputIndexes_data_ok tl o hb line fun h => absurd h0 h
    rw [he] at h; cases h
  by_cases hlen : lp.idxRange ≤ (line.splitOn lp.ifs).length
  · obtain ⟨hnull, hok⟩ := outputIndexes_nullTime tl h0 hb hlen
    cases hany : lp.outIndexes.any (nullTime tl o lp (line.splitOn lp.ifs))
    · obtain ⟨l, errs, he⟩ := hok hany
      rw [he] at h; cases h
    · rw [hnull hany] at h; cases h; rfl
  · rw [outputIndexes_data tl line o hb.idxRange_le_tmpAlloc hb.indexes fun h0 => (hb.timeCols h0 rfl).ge,
      if_pos (by omega)] at h
    cases h

/-- With time conversion on, after any run that expects no `#types` line, a data line with
`idx_range` fields ends the run in undefined behaviour, whatever follows it, when `localtime`
or `gmtime` returns NULL for one of its selected time values; otherwise it is written as one
output line. -/
theorem null_time_undefined (o : UserOpts) (h0 : o.timeconv ≠ 0) {ls : List (List Char)}
    {st : RunState} {out : List (List Char)} {err : List Diag}
    (hrun : exec tl o .start ls = .running st out err) (hp : st.prevFieldsLine = false)
    {raw : List Char} (hd : isHdr (lineText raw) = false)
    (hlen : st.lp.idxRange ≤ ((lineText raw).splitOn st.lp.ifs).length) :
    (st.lp.outIndexes.any (nullTime tl o st.lp ((lineText raw).splitOn st.lp.ifs)) →
      ∀ rest, exec tl o .start (ls ++ raw :: rest) = .undefined .nullTm) ∧
    (st.lp.outIndexes.any (nullTime tl o st.lp ((lineText raw).splitOn st.lp.ifs)) = false →
      ∃ l errs, exec tl o .start (ls ++ [raw]) =
        .running { st with prevLineHdr := false } (out ++ [l]) (err ++ errs)) := by
  have hb := bounded_of_exec tl o hrun
  rw [hp] at hb
  obtain ⟨hnull, hok⟩ := outputIndexes_nullTime tl h0 hb hlen
  have hstep := @step_data Tm tl o st raw (by simp [hp]) hd
  refine ⟨fun hany rest => ?_, fun hnone => ?_⟩
  · rw [exec_append, hrun, exec_cons, Run.feed, hstep, hnull hany]
    exact exec_undefined tl o _ rest
  · obtain ⟨l, errs, he⟩ := hok hnone
    exact ⟨l, errs, by rw [exec_append, hrun, exec_cons, Run.feed, hstep, he]; rfl⟩

/-- Under `-u`, a time column holding the first second whose year is past `tm_year`. -/
theorem null_time_undefined_sample :
    broCut TimeLib.utcRange ⟨0, false, 2, [], [], "%Y-%m-%dT%H:%M:%S%z".toList⟩
      "#separator \\x09\n#fields\tts\n#types\ttime\n67768036191676800\n".toList = .undefined .nullTm :=
  (@null_time_undefined Int TimeLib.utcRange ⟨0, false, 2, [], [], "%Y-%m-%dT%H:%M:%S%z".toList⟩ (by decide)
    ["#separator \\x09\n".toList, "#fields\tts\n".toList, "#types\ttime\n".toList] _ _ _ rfl rfl
    "67768036191676800\n".toList rfl (by decide)).1 (by decide) []

section Reach

variable {Tm' : Type} (tl' : TimeLib Tm')

theorem outputField_calendar {o : UserOpts} (h : ∀ x, convertTime tl o x = convertTime tl' o x)
    (lp : LogParams) (tmp : List (List Char)) (hdr dotimeconv dotimetypeconv : Bool) :
    outputField tl o lp tmp hdr dotimeconv dotimetypeconv = outputField tl' o lp tmp hdr dotimeconv dotimetypeconv := by
  funext v
  simp only [outputField, h]

theorem outputIndexes_calendar {o : UserOpts} (h : o.timeconv ≠ 0 → ∀ x, convertTime tl o x = convertTime tl' o x)
    (hdr : Bool) (line : List Char) (lp : LogParams) :
    outputIndexes tl hdr line lp o = outputIndexes tl' hdr line lp o := by
  by_cases hc : o.timeconv ≠ 0 ∧ hdr = false
  · simp only [outputIndexes, outputField_calendar tl tl' (h hc.1)]
  · have hd : (decide (o.timeconv ≠ 0) && !hdr) = false := by
      cases hdr <;> simp_all
    simp only [outputIndexes, hd, outputField_no_conv tl tl']

theorem step_calendar {o : UserOpts} (h : o.timeconv ≠ 0 → ∀ x, convertTime tl o x = convertTime tl' o x)
    (st : RunState) (raw : List Char) : step tl o st raw = step tl' o st raw := by
  simp only [step, showHeader, emitHeader, outputIndexes_calendar tl tl' h]

theorem exec_calendar {o : UserOpts} (h : o.timeconv ≠ 0 → ∀ x, convertTime tl o x = convertTime tl' o x)
    (r : Run) (ls : List (List Char)) : exec tl o r ls = exec tl' o r ls := by
  induction ls generalizing r with
  | nil => rw [exec_nil, exec_nil]
  | cons raw ls ih =>
    have hf : r.feed tl o raw = r.feed tl' o raw := by
      cases r <;> simp only [Run.feed, step_calendar tl tl' h]
    rw [exec_cons, exec_cons, hf, ih]

end Reach

end BroCut
