import BroCut.Framing
import BroCut.Bounds

/-!
# Header blocks as they are written

A sub-log is a `#separator ` line, other `#`-lines, a `#fields` line and the `#types` line
after it, both written as their tag, the declared separator and the entries, then data
lines. This module computes what the loop does on each of these lines when they are
well formed, and on a whole header block (`runs_header`) and a run of data lines
(`runs_data`). `Runs` packages the loop over some lines: the state it reaches and the lines
it writes, whatever was written before.
-/

namespace BroCut

/-- A sub-log: `sepSpec` follows `#separator `, `fieldsText` and `typesText` follow the tag
and the declared separator of the `#fields` and `#types` lines. -/
structure SubLog where
  sepSpec : List Char
  others : List (List Char)
  fieldsText : List Char
  typesText : List Char
  data : List (List Char)

namespace SubLog

def sep (b : SubLog) : Char := parsesep b.sepSpec

def names (b : SubLog) : List (List Char) := b.fieldsText.splitOn b.sep

def types (b : SubLog) : List (List Char) := b.typesText.splitOn b.sep

def sepLine (b : SubLog) : List Char := "#separator ".toList ++ b.sepSpec

def fieldsLine (b : SubLog) : List Char := "#fields".toList ++ b.sep :: b.fieldsText

def typesLine (b : SubLog) : List Char := "#types".toList ++ b.sep :: b.typesText

def lines (b : SubLog) : List (List Char) :=
  b.sepLine :: b.others ++ b.fieldsLine :: b.typesLine :: b.data

/-- The conditions under which the lines of a sub-log are read as written. -/
structure WellFormed (b : SubLog) : Prop where
  /-- Every line is one line of the stream and one C string. -/
  clean : ∀ l ∈ b.lines, '\n' ∉ l ∧ nul ∉ l
  /-- The separator splits no tag. -/
  sep_fields : b.sep ∉ "#fields".toList
  sep_types : b.sep ∉ "#types".toList
  /-- The other header lines are none of `#separator `, `#fields` or `#types`. -/
  others : ∀ l ∈ b.others, classify l = .other
  types_length : b.types.length = b.names.length
  data : ∀ d ∈ b.data, classify d = .data

theorem WellFormed.sep_ne_nul {b : SubLog} (h : b.WellFormed) : b.sep ≠ nul := fun hs =>
  (h.clean b.fieldsLine (by simp [lines])).2 (by simp [fieldsLine, hs])

end SubLog

variable {Tm : Type} (tl : TimeLib Tm)

/-- Feeding `ls` from the state `st` reaches `st'`, writing `out` and adding the messages `err`
after whatever came before. -/
def RunsMsg (o : UserOpts) (st : RunState) (ls : List (List Char)) (st' : RunState)
    (out : List (List Char)) (err : List Diag) : Prop :=
  ∀ out₀ err₀, exec tl o (.running st out₀ err₀) ls = .running st' (out₀ ++ out) (err₀ ++ err)

/-- The same, whatever the messages. -/
def Runs (o : UserOpts) (st : RunState) (ls : List (List Char)) (st' : RunState)
    (out : List (List Char)) : Prop :=
  ∃ err, RunsMsg tl o st ls st' out err

theorem RunsMsg.nil (o : UserOpts) (st : RunState) : RunsMsg tl o st [] st [] [] := fun _ _ => by simp

theorem RunsMsg.single {o : UserOpts} {st st' : RunState} {raw : List Char} {e : Emit}
    (h : step tl o st raw = .ok (st', e)) : RunsMsg tl o st [raw] st' e.out e.err :=
  fun _ _ => by simp [Run.feed, h]

theorem RunsMsg.append {o : UserOpts} {st st₁ st₂ : RunState} {ls₁ ls₂ : List (List Char)}
    {out₁ out₂ : List (List Char)} {err₁ err₂ : List Diag} (h₁ : RunsMsg tl o st ls₁ st₁ out₁ err₁)
    (h₂ : RunsMsg tl o st₁ ls₂ st₂ out₂ err₂) : RunsMsg tl o st (ls₁ ++ ls₂) st₂ (out₁ ++ out₂) (err₁ ++ err₂) :=
  fun out₀ err₀ => by rw [exec_append, h₁ out₀ err₀, h₂]; simp

theorem RunsMsg.of_eq {o : UserOpts} {st st' st'' : RunState} {ls ls' : List (List Char)}
    {out out' : List (List Char)} {err err' : List Diag} (h : RunsMsg tl o st ls st' out err) (hl : ls = ls')
    (hs : st' = st'') (ho : out = out') (he : err = err') : RunsMsg tl o st ls' st'' out' err' :=
  hl ▸ hs ▸ ho ▸ he ▸ h

theorem Runs.nil (o : UserOpts) (st : RunState) : Runs tl o st [] st [] :=
  ⟨[], RunsMsg.nil tl o st⟩

theorem Runs.append {o : UserOpts} {st st₁ st₂ : RunState} {ls₁ ls₂ : List (List Char)}
    {out₁ out₂ : List (List Char)} (h₁ : Runs tl o st ls₁ st₁ out₁) (h₂ : Runs tl o st₁ ls₂ st₂ out₂) :
    Runs tl o st (ls₁ ++ ls₂) st₂ (out₁ ++ out₂) :=
  let ⟨_, h₁⟩ := h₁; let ⟨_, h₂⟩ := h₂; ⟨_, h₁.append tl h₂⟩

theorem Runs.of_eq {o : UserOpts} {st st' st'' : RunState} {ls ls' : List (List Char)}
    {out out' : List (List Char)} (h : Runs tl o st ls st' out) (hl : ls = ls') (hs : st' = st'')
    (ho : out = out') : Runs tl o st ls' st'' out' :=
  hl ▸ hs ▸ ho ▸ h

theorem broCut_of_runs {o : UserOpts} {ls : List (List Char)} {st : RunState} {out : List (List Char)}
    (h : Runs tl o RunState.init (ls.map (· ++ ['\n'])) st out) (hls : ∀ l ∈ ls, '\n' ∉ l) :
    ∃ err, broCut tl o (render ls) = .running st out err := by
  obtain ⟨err, h⟩ := h
  exact ⟨err, by simpa [broCut_render tl o ls hls] using h [] []⟩

theorem lineText_clean {l : List Char} (hl : nul ∉ l) : lineText (l ++ ['\n']) = l := by
  rw [lineText_newline, cstr_of_nul_not_mem hl]

theorem hasPrefix_tag (tag : String) (rest : List Char) : hasPrefix (tag.toList ++ rest) tag :=
  (hasPrefix_iff _ _).mpr (List.prefix_append _ _)

theorem step_hdrLine (o : UserOpts) {st : RunState} {l : List Char} (hl : nul ∉ l)
    (hh : isHdr l) (hf : st.prevFieldsLine → hasPrefix l "#types") :
    step tl o st (l ++ ['\n']) = (updateHeader o l (enterHeader st) (classify l)).bind
      fun st' => (undef (showHeader tl o st' l)).bind fun e => .ok (st', e) := by
  have hf' : ¬(st.prevFieldsLine ∧ hasPrefix (lineText (l ++ ['\n'])) "#types" = false) := by
    rw [lineText_clean hl]; intro ⟨hp, ht⟩; simp [hf hp] at ht
  rw [step_header tl hf' (by rw [lineText_clean hl]; exact hh), lineText_clean hl, List.dropLast_concat]

theorem step_dataLine (o : UserOpts) {st : RunState} {l : List Char} (hl : nul ∉ l)
    (hk : classify l = .data) (hp : st.prevFieldsLine = false) :
    step tl o st (l ++ ['\n']) = (undef (outputIndexes tl false l st.lp o)).bind
      fun e => .ok ({ st with prevLineHdr := false }, e) := by
  rw [step_data tl (by simp [hp]) (by rw [lineText_clean hl]; exact classify_eq_data.mp hk),
    lineText_clean hl]

@[simp] theorem enterHeader_prevLineHdr (st : RunState) : (enterHeader st).prevLineHdr = true := by
  unfold enterHeader; split_ifs with h <;> simp [h]

theorem undef_ok {α : Type} (a : α) : undef (.ok a : Except Undefined α) = .ok a := rfl

theorem step_sepLine (o : UserOpts) {st : RunState} {spec : List Char}
    (hl : nul ∉ "#separator ".toList ++ spec) (hp : st.prevFieldsLine = false) :
    step tl o st (("#separator ".toList ++ spec) ++ ['\n']) =
      .ok (⟨installSep o st.lp (parsesep spec), (enterHeader st).headersSeen, true, false⟩,
        ⟨if (enterHeader st).headersSeen ≤ o.showhdr then ["#separator ".toList ++ spec] else [], []⟩) := by
  have hk : classify ("#separator ".toList ++ spec) = .separator := by
    rw [classify, if_neg (by simp), if_pos (hasPrefix_tag _ _)]
  have hspec : cstr (("#separator ".toList ++ spec).drop 11) = spec := by
    simpa using cstr_of_nul_not_mem fun h => hl (List.mem_append_right _ h)
  have hemit : emitHeader tl o (installSep o st.lp (parsesep spec)) ("#separator ".toList ++ spec) =
      .ok ⟨["#separator ".toList ++ spec], []⟩ := by
    rw [emitHeader, if_neg (by simp [hasPrefix])]
  rw [step_hdrLine tl o hl (by simp [isHdr]) (by simp [hp]), hk]
  simp only [updateHeader, hspec, enterHeader_lp, except_bind_ok, showHeader, hemit]
  split_ifs <;> simp [hp, undef_ok]

theorem enterHeader_of_prevLineHdr {st : RunState} (h : st.prevLineHdr = true) :
    enterHeader st = st := by
  simp [enterHeader, h]

@[simp] theorem enterHeader_in_header (lp : LogParams) (n : Nat) (f : Bool) :
    enterHeader ⟨lp, n, true, f⟩ = ⟨lp, n, true, f⟩ := rfl

theorem classify_other {l : List Char} (h : classify l = .other) :
    isHdr l ∧ hasPrefix l "#fields" = false ∧ hasPrefix l "#types" = false := by
  unfold classify at h
  split_ifs at h with h1 h2 h3 h4
  exact ⟨by simpa [isHdr] using h1, by simpa using h3, by simpa using h4⟩

theorem step_otherLine (o : UserOpts) {st : RunState} {l : List Char} (hl : nul ∉ l)
    (hk : classify l = .other) (hp : st.prevFieldsLine = false) (hh : st.prevLineHdr = true) :
    step tl o st (l ++ ['\n']) = .ok (st, ⟨if st.headersSeen ≤ o.showhdr then [l] else [], []⟩) := by
  obtain ⟨hhdr, hf, ht⟩ := classify_other hk
  have hemit : emitHeader tl o st.lp l = .ok ⟨[l], []⟩ := by rw [emitHeader, if_neg (by simp [hf, ht])]
  rw [step_hdrLine tl o hl hhdr (by simp [hp]), hk, enterHeader_of_prevLineHdr hh]
  simp only [updateHeader, except_bind_ok, showHeader, hemit]
  split_ifs <;> rfl

/-- The parameters a `#types` line leaves: under time conversion, `time_cols` flags its
first `idx_range` entries that are `time`. -/
def typesParams (o : UserOpts) (lp : LogParams) (types : List (List Char)) : LogParams :=
  if o.timeconv = 0 then lp
  else { lp with timeCols := (types.take lp.idxRange).map fun t => decide (t = "time".toList) }

@[simp] theorem typesParams_idxRange (o : UserOpts) (lp : LogParams) (types : List (List Char)) :
    (typesParams o lp types).idxRange = lp.idxRange := by
  unfold typesParams; split_ifs <;> rfl

@[simp] theorem typesParams_tmpAlloc (o : UserOpts) (lp : LogParams) (types : List (List Char)) :
    (typesParams o lp types).tmpAlloc = lp.tmpAlloc := by
  unfold typesParams; split_ifs <;> rfl

@[simp] theorem typesParams_outIndexes (o : UserOpts) (lp : LogParams) (types : List (List Char)) :
    (typesParams o lp types).outIndexes = lp.outIndexes := by
  unfold typesParams; split_ifs <;> rfl

@[simp] theorem typesParams_ifs (o : UserOpts) (lp : LogParams) (types : List (List Char)) :
    (typesParams o lp types).ifs = lp.ifs := by
  unfold typesParams; split_ifs <;> rfl

@[simp] theorem typesParams_ofs (o : UserOpts) (lp : LogParams) (types : List (List Char)) :
    (typesParams o lp types).ofs = lp.ofs := by
  unfold typesParams; split_ifs <;> rfl

theorem step_fieldsLine (o : UserOpts) {st : RunState} {s : Char} {text : List Char}
    (hifs : st.lp.ifs = s) (hl : nul ∉ "#fields".toList ++ s :: text) (hs : s ∉ "#fields".toList)
    (hp : st.prevFieldsLine = false) :
    step tl o st (("#fields".toList ++ s :: text) ++ ['\n']) =
      .ok ({ enterHeader st with prevFieldsLine := true, lp := fieldsParams st.lp o (text.splitOn s) },
        ⟨if (enterHeader st).headersSeen ≤ o.showhdr then
          [(cstr [st.lp.ofs]).intercalate ("#fields".toList ::
            (selection o (text.splitOn s)).map (entryText (text.splitOn s) 0))]
          else [], []⟩) := by
  subst hifs
  have hnul : st.lp.ifs ≠ nul := fun h => hl (by simp [← h])
  have htext : cstr (("#fields".toList ++ st.lp.ifs :: text).drop 8) = text := by
    simpa using cstr_of_nul_not_mem fun h => hl (by simp [h])
  have hne := splitOn_ne_nil st.lp.ifs text
  have hemit : emitHeader tl o (fieldsParams st.lp o (text.splitOn st.lp.ifs))
      ("#fields".toList ++ st.lp.ifs :: text) = .ok ⟨[(cstr [st.lp.ofs]).intercalate ("#fields".toList ::
        (selection o (text.splitOn st.lp.ifs)).map (entryText (text.splitOn st.lp.ifs) 0))], []⟩ := by
    have hb := bounded_fields o st.lp hne
    have hr := selectionRange_le (o := o) hne
    rw [emitHeader, if_pos (by rw [hasPrefix_tag, Bool.true_or]), outputIndexes_header tl _ o
      (by simp [fieldsParams]; omega) hb.indexes]
    simp only [fieldsParams, splitOn_tag text hs, List.length_cons, headerEntry_cons]
    rw [if_neg (by omega)]
    simp
  rw [step_hdrLine tl o hl (by simp [isHdr]) (by simp [hp]), classify_of_fields (hasPrefix_tag _ _)]
  simp only [updateHeader, htext, enterHeader_lp, findOutputIndexes_spec _ _ _ hnul, undef_ok,
    except_ok_bind, except_pure, except_bind_ok, showHeader, hemit]
  split_ifs <;> rfl

theorem step_typesLine (o : UserOpts) {st : RunState} {s : Char} {text : List Char}
    (hifs : st.lp.ifs = s) (hl : nul ∉ "#types".toList ++ s :: text) (hs : s ∉ "#types".toList)
    (hb : Bounded o st.lp true) (hp : st.prevFieldsLine = true) (hh : st.prevLineHdr = true)
    (hlen : st.lp.idxRange ≤ (text.splitOn s).length) :
    step tl o st (("#types".toList ++ s :: text) ++ ['\n']) =
      .ok ({ st with prevFieldsLine := false, lp := typesParams o st.lp (text.splitOn s) },
        ⟨if st.headersSeen ≤ o.showhdr then
          [(cstr [st.lp.ofs]).intercalate ("#types".toList ::
            st.lp.outIndexes.map (headerEntry o ("#types".toList :: text.splitOn s)))]
          else [], []⟩) := by
  subst hifs
  have htext : cstr (("#types".toList ++ st.lp.ifs :: text).drop 7) = text := by
    simpa using cstr_of_nul_not_mem fun h => hl (by simp [h])
  have hupd : updateHeader o ("#types".toList ++ st.lp.ifs :: text) st .types =
      .ok { st with prevFieldsLine := false, lp := typesParams o st.lp (text.splitOn st.lp.ifs) } := by
    simp only [updateHeader, hp, Bool.not_true, Bool.false_eq_true, if_false, htext]
    by_cases h0 : o.timeconv = 0
    · simp [h0, typesParams]
    · rw [if_neg h0, findTimecol_spec, if_neg (by omega)]
      simp [h0, typesParams]
  have hemit : emitHeader tl o (typesParams o st.lp (text.splitOn st.lp.ifs))
      ("#types".toList ++ st.lp.ifs :: text) = .ok ⟨[(cstr [st.lp.ofs]).intercalate ("#types".toList ::
        st.lp.outIndexes.map (headerEntry o ("#types".toList :: text.splitOn st.lp.ifs)))], []⟩ := by
    rw [emitHeader, if_pos (by rw [hasPrefix_tag "#types", Bool.or_true]), outputIndexes_header tl _ o
      (by simpa using hb.tag_slot) (by simpa [IndexesValid] using hb.indexes)]
    simp only [typesParams_ifs, typesParams_ofs, typesParams_idxRange, typesParams_outIndexes,
      splitOn_tag text hs, List.length_cons]
    rw [if_neg (by omega)]
    rfl
  rw [step_hdrLine tl o hl (by simp [isHdr]) (fun _ => hasPrefix_tag _ _),
    classify_of_types (hasPrefix_tag _ _), enterHeader_of_prevLineHdr hh]
  simp only [hupd, except_bind_ok, showHeader, hemit]
  split_ifs <;> rfl

theorem step_typesLine_short {o : UserOpts} (h0 : o.timeconv ≠ 0) {st : RunState} {s : Char}
    {text : List Char} (hifs : st.lp.ifs = s) (hl : nul ∉ "#types".toList ++ s :: text)
    (hp : st.prevFieldsLine = true) (hshort : (text.splitOn s).length < st.lp.idxRange) :
    step tl o st (("#types".toList ++ s :: text) ++ ['\n']) = .error (.fatal .fewTypes) := by
  subst hifs
  have htext : cstr text = text := cstr_of_nul_not_mem fun h => hl (by simp [h])
  rw [step_hdrLine tl o hl (by simp [isHdr]) (fun _ => hasPrefix_tag _ _),
    classify_of_types (hasPrefix_tag _ _)]
  simp [updateHeader, hp, h0, htext, findTimecol_spec, hshort]

theorem runsMsg_others (o : UserOpts) {st : RunState} {ls : List (List Char)}
    (hls : ∀ l ∈ ls, classify l = .other ∧ nul ∉ l) (hp : st.prevFieldsLine = false)
    (hh : st.prevLineHdr = true) :
    RunsMsg tl o st (ls.map (· ++ ['\n'])) st (if st.headersSeen ≤ o.showhdr then ls else []) [] := by
  induction ls with
  | nil => split_ifs <;> exact RunsMsg.nil tl o st
  | cons l ls ih =>
    have h₁ := RunsMsg.single tl (step_otherLine tl o (hls l (List.mem_cons_self _ _)).2
      (hls l (List.mem_cons_self _ _)).1 hp hh)
    have h := RunsMsg.append tl h₁ (ih fun l' hl' => hls l' (List.mem_cons_of_mem _ hl'))
    split_ifs at h ⊢ <;> simpa using h

theorem runsMsg_data (o : UserOpts) {st : RunState} {ds : List (List Char)} (g : List Char → List (List Char))
    (m : List Char → List Diag) (hp : st.prevFieldsLine = false)
    (hds : ∀ d ∈ ds, classify d = .data ∧ nul ∉ d ∧ outputIndexes tl false d st.lp o = .ok ⟨g d, m d⟩) :
    RunsMsg tl o st (ds.map (· ++ ['\n'])) (if ds = [] then st else { st with prevLineHdr := false })
      (ds.flatMap g) (ds.flatMap m) := by
  induction ds generalizing st with
  | nil => simpa using RunsMsg.nil tl o st
  | cons d ds ih =>
    obtain ⟨hk, hl, he⟩ := hds d (List.mem_cons_self _ _)
    have h₁ := RunsMsg.single tl (show step tl o st (d ++ ['\n']) =
      .ok ({ st with prevLineHdr := false }, ⟨g d, m d⟩) by rw [step_dataLine tl o hl hk hp, he]; rfl)
    have h₂ := @ih { st with prevLineHdr := false } hp fun d' hd' => hds d' (List.mem_cons_of_mem _ hd')
    simpa using RunsMsg.append tl h₁ h₂

theorem runs_data (o : UserOpts) {st : RunState} {ds : List (List Char)} (g : List Char → List (List Char))
    (hp : st.prevFieldsLine = false)
    (hds : ∀ d ∈ ds, classify d = .data ∧ nul ∉ d ∧ ∃ errs, outputIndexes tl false d st.lp o = .ok ⟨g d, errs⟩) :
    Runs tl o st (ds.map (· ++ ['\n'])) (if ds = [] then st else { st with prevLineHdr := false })
      (ds.flatMap g) := by
  choose! m hm using fun d hd => (hds d hd).2.2
  exact ⟨_, runsMsg_data tl o g m hp fun d hd => ⟨(hds d hd).1, (hds d hd).2.1, hm d hd⟩⟩

namespace SubLog

/-- The parameters the header of `b` leaves, from the parameters `lp` before it. -/
def params (o : UserOpts) (b : SubLog) (lp : LogParams) : LogParams :=
  typesParams o (fieldsParams (installSep o lp b.sep) o b.names) b.types

@[simp] theorem params_ifs (o : UserOpts) (b : SubLog) (lp : LogParams) : (b.params o lp).ifs = b.sep := by
  simp [params, fieldsParams]

@[simp] theorem params_ofs (o : UserOpts) (b : SubLog) (lp : LogParams) :
    (b.params o lp).ofs = outSep o b.sep := by
  simp [params, fieldsParams]

@[simp] theorem params_idxRange (o : UserOpts) (b : SubLog) (lp : LogParams) :
    (b.params o lp).idxRange = selectionRange o b.names := by
  simp [params, fieldsParams]

@[simp] theorem params_outIndexes (o : UserOpts) (b : SubLog) (lp : LogParams) :
    (b.params o lp).outIndexes = selection o b.names := by
  simp [params, fieldsParams]

@[simp] theorem params_tmpAlloc (o : UserOpts) (b : SubLog) (lp : LogParams) :
    (b.params o lp).tmpAlloc = b.names.length + 1 := by
  simp [params, fieldsParams]

/-- The `#fields` line as shown: the tag and the selected names, joined by the output
separator. -/
def shownFields (o : UserOpts) (b : SubLog) : List Char :=
  [outSep o b.sep].intercalate ("#fields".toList :: (selection o b.names).map (entryText b.names 0))

/-- The `#types` line as shown: the tag and the selected types, a `time` type written as
`string` under time conversion. -/
def shownTypes (o : UserOpts) (b : SubLog) : List Char :=
  [outSep o b.sep].intercalate ("#types".toList :: (selection o b.names).map fun v =>
    if o.timeconv ≠ 0 ∧ entryText b.types 0 v = "time".toList then "string".toList
    else entryText b.types 0 v)

end SubLog

theorem outSep_ne_nul (o : UserOpts) {c : Char} (h : c ≠ nul) : outSep o c ≠ nul := by
  unfold outSep; split_ifs with h' <;> simp_all

theorem cstr_singleton {c : Char} (h : c ≠ nul) : cstr [c] = [c] := by
  simp [cstr, h]

/-- The header of a well-formed sub-log: its lines shown as a block when the header mode
shows it, the parameters it declares installed, and no message. -/
theorem runsMsg_header (o : UserOpts) {b : SubLog} (hwf : b.WellFormed) {st : RunState}
    (hp : st.prevFieldsLine = false) :
    RunsMsg tl o st ((b.sepLine :: b.others ++ [b.fieldsLine, b.typesLine]).map (· ++ ['\n']))
      ⟨b.params o st.lp, (enterHeader st).headersSeen, true, false⟩
      (if (enterHeader st).headersSeen ≤ o.showhdr then
        b.sepLine :: b.others ++ [b.shownFields o, b.shownTypes o] else []) [] := by
  have hc := fun l hl => hwf.clean l (by simp [SubLog.lines] at hl ⊢; tauto)
  have hofs : cstr [outSep o b.sep] = [outSep o b.sep] := cstr_singleton (outSep_ne_nul o hwf.sep_ne_nul)
  have hne := splitOn_ne_nil b.sep b.fieldsText
  have h₁ := RunsMsg.single tl (@step_sepLine _ tl o st b.sepSpec (hc b.sepLine (by simp)).2 hp)
  have h₂ := @runsMsg_others _ tl o ⟨installSep o st.lp b.sep, (enterHeader st).headersSeen, true, false⟩
    b.others (fun l hl => ⟨hwf.others l hl, (hc l (by simp [hl])).2⟩) rfl rfl
  have h₃ := RunsMsg.single tl (@step_fieldsLine _ tl o
    ⟨installSep o st.lp b.sep, (enterHeader st).headersSeen, true, false⟩ b.sep b.fieldsText
    rfl (hc b.fieldsLine (by simp)).2 hwf.sep_fields rfl)
  have hlen : selectionRange o b.names ≤ (b.typesText.splitOn b.sep).length := by
    rw [← SubLog.types, hwf.types_length]; exact selectionRange_le hne
  have h₄ := RunsMsg.single tl (@step_typesLine _ tl o
    ⟨fieldsParams (installSep o st.lp b.sep) o b.names, (enterHeader st).headersSeen, true, true⟩
    b.sep b.typesText rfl (hc b.typesLine (by simp)).2 hwf.sep_types
    (bounded_fields o _ hne) rfl rfl hlen)
  refine RunsMsg.of_eq tl (RunsMsg.append tl h₁ (RunsMsg.append tl h₂ (RunsMsg.append tl h₃ h₄)))
    (by simp [SubLog.sepLine, SubLog.fieldsLine, SubLog.typesLine]) rfl ?_ rfl
  simp only [installSep_ofs, fieldsParams, hofs, SubLog.shownFields, SubLog.shownTypes,
    headerEntry_cons, SubLog.names, SubLog.types, SubLog.sepLine, enterHeader_in_header]
  split_ifs <;> simp

theorem runs_header (o : UserOpts) {b : SubLog} (hwf : b.WellFormed) {st : RunState}
    (hp : st.prevFieldsLine = false) :
    Runs tl o st ((b.sepLine :: b.others ++ [b.fieldsLine, b.typesLine]).map (· ++ ['\n']))
      ⟨b.params o st.lp, (enterHeader st).headersSeen, true, false⟩
      (if (enterHeader st).headersSeen ≤ o.showhdr then
        b.sepLine :: b.others ++ [b.shownFields o, b.shownTypes o] else []) :=
  ⟨[], runsMsg_header tl o hwf hp⟩

end BroCut
