import BroCut.Projection
import BroCut.TimeTypes
import BroCut.Calendar

/-!
# Re-cutting

With every header block shown and no output separator given, what `bro_cut` writes for a
well-formed sub-log is itself a sub-log (`SubLog.recut`): its `#fields` and `#types` lines
carry the projected names and types, its data lines the projected values. Selecting again
from projected names gives back the same positions (`selection_reselect`), a projected
`#types` line has no `time` entry left, so `recut` is idempotent, and running `bro_cut` on
its own output writes that output again (`recut_idempotent`).
-/

namespace BroCut

theorem intercalate_cons_ne {α : Type} (s : α) (x : List α) {l : List (List α)} (hl : l ≠ []) :
    [s].intercalate (x :: l) = x ++ s :: [s].intercalate l := by
  obtain ⟨y, ys, rfl⟩ := List.exists_cons_of_ne_nil hl
  simp [List.intercalate]

theorem mem_intercalate {α : Type} {s c : α} {L : List (List α)} (h : c ∈ [s].intercalate L) :
    c = s ∨ ∃ x ∈ L, c ∈ x := by
  induction L with
  | nil => simp [List.intercalate] at h
  | cons x L ih =>
    by_cases hL : L = []
    · subst hL
      exact .inr ⟨x, List.mem_singleton_self _, by simpa [List.intercalate] using h⟩
    · rw [intercalate_cons_ne s x hL, List.mem_append, List.mem_cons] at h
      rcases h with h | h | h
      · exact .inr ⟨x, List.mem_cons_self _ _, h⟩
      · exact .inl h
      · exact (ih h).imp_right fun ⟨y, hy, hc⟩ => ⟨y, List.mem_cons_of_mem _ hy, hc⟩

theorem forall_mem_intercalate {α : Type} {P : α → Prop} {s : α} {L : List (List α)} (hs : P s)
    (hL : ∀ x ∈ L, ∀ c ∈ x, P c) : ∀ c ∈ [s].intercalate L, P c := fun c hc => by
  rcases mem_intercalate hc with rfl | ⟨x, hx, hc⟩
  · exact hs
  · exact hL x hx c hc

theorem head?_intercalate_ne {α : Type} {s c : α} {L : List (List α)} (hs : s ≠ c)
    (hL : ∀ x ∈ L, x.head? ≠ some c) : ([s].intercalate L).head? ≠ some c := by
  cases L with
  | nil => simp [List.intercalate]
  | cons x L =>
    by_cases hL' : L = []
    · subst hL'
      simpa [List.intercalate] using hL x (List.mem_singleton_self _)
    · rw [intercalate_cons_ne s x hL']
      cases x with
      | nil => simpa using hs
      | cons a x => simpa using hL _ (List.mem_cons_self _ _)

theorem mem_headerLine {tag : String} {s c : Char} {text : List Char} {g : Int → List Char}
    {sel : List Int} (hc : c ∈ tag.toList ++ s :: [s].intercalate (sel.map g))
    (hg : ∀ v, ∀ c ∈ g v, c ∈ text ∨ c ∈ "string".toList) :
    c ∈ tag.toList ++ s :: text ∨ c ∈ "string".toList := by
  simp only [List.mem_append, List.mem_cons] at hc ⊢
  rcases hc with hc | rfl | hc
  · exact .inl (.inl hc)
  · exact .inl (.inr (.inl rfl))
  · rcases mem_intercalate hc with rfl | ⟨x, hx, hcx⟩
    · exact .inl (.inr (.inl rfl))
    · obtain ⟨v, -, rfl⟩ := List.mem_map.mp hx
      exact (hg v c hcx).imp_left fun h => .inr (.inr h)

theorem flatMap_of_singleton {α : Type} {f : α → List α} {L : List α} (h : ∀ y ∈ L, f y = [y]) :
    L.flatMap f = L := by
  induction L with
  | nil => rfl
  | cons y L ih =>
    rw [List.flatMap_cons, h y (List.mem_cons_self _ _), ih fun z hz => h z (List.mem_cons_of_mem _ hz)]
    rfl

theorem mapM_ok_fst {α β γ ε : Type} {f : α → Except ε (β × γ)} {g : α → β} {l : List α}
    (h : ∀ x ∈ l, ∃ c, f x = .ok (g x, c)) : ∃ fs, l.mapM f = .ok fs ∧ fs.map Prod.fst = l.map g := by
  induction l with
  | nil => exact ⟨[], rfl, rfl⟩
  | cons x xs ih =>
    obtain ⟨c, hx⟩ := h x (List.mem_cons_self _ _)
    obtain ⟨fs, hfs, hmap⟩ := ih fun y hy => h y (List.mem_cons_of_mem _ hy)
    exact ⟨(g x, c) :: fs, by rw [List.mapM_cons, hx, hfs]; rfl, by simp [hmap]⟩

theorem entryText_mem (f : List (List Char)) (k : Nat) (v : Int) :
    entryText f k v = [] ∨ entryText f k v ∈ f := by
  unfold entryText
  split_ifs
  · exact .inl rfl
  · by_cases hi : v.toNat + k < f.length
    · exact .inr (by rw [List.getD_eq_getElem _ _ hi]; exact List.getElem_mem hi)
    · exact .inl (List.getD_eq_default _ _ (by omega))

theorem sep_not_mem_entryText (s : Char) (t : List Char) (v : Int) :
    s ∉ entryText (t.splitOn s) 0 v := fun h => by
  rcases entryText_mem (t.splitOn s) 0 v with he | he
  · simp [he] at h
  · exact (mem_of_mem_splitOn he h).2 rfl

theorem mem_of_mem_entryText {s c : Char} {t : List Char} {v : Int}
    (h : c ∈ entryText (t.splitOn s) 0 v) : c ∈ t := by
  rcases entryText_mem (t.splitOn s) 0 v with he | he
  · simp [he] at h
  · exact (mem_of_mem_splitOn he h).1

theorem clean_iff {l : List Char} : ('\n' ∉ l ∧ nul ∉ l) ↔ ∀ c ∈ l, c ≠ '\n' ∧ c ≠ nul :=
  ⟨fun h _ hc => ⟨fun e => h.1 (e ▸ hc), fun e => h.2 (e ▸ hc)⟩,
    fun h => ⟨fun hc => (h _ hc).1 rfl, fun hc => (h _ hc).2 rfl⟩⟩

theorem outSep_of_headD {o : UserOpts} (hofs : o.ofs.headD nul = nul) (c : Char) : outSep o c = c := by
  rw [outSep, if_neg (not_not.mpr hofs)]

/-- A requested name as the projected `#fields` line writes it: itself, or empty when the
header does not declare it. -/
def resolve (names : List (List Char)) (c : List Char) : List Char := if c ∈ names then c else []

theorem firstIndex_spec {names : List (List Char)} {c : List Char} (hc : c ∈ names) :
    ∃ i : Nat, firstIndex names c = i ∧ i < names.length ∧ names.getD i [] = c := by
  have hlt := List.findIdx_lt_length_of_exists (p := fun n => decide (n = c)) ⟨c, hc, by simp⟩
  refine ⟨_, by simp [firstIndex, hc], hlt, ?_⟩
  simpa [List.getElem?_eq_getElem hlt] using List.findIdx_getElem (w := hlt)

theorem entryText_firstIndex (names : List (List Char)) (c : List Char) :
    entryText names 0 (firstIndex names c) = resolve names c := by
  by_cases hc : c ∈ names
  · obtain ⟨i, hi, -, hget⟩ := firstIndex_spec hc
    rw [hi]
    simpa [entryText, resolve, hc] using hget
  · simp [entryText, resolve, hc, firstIndex]

theorem reselect_columns (names C : List (List Char)) (h : Int → List Char) (hneg : h (-1) = [])
    (hC : [] ∉ C) :
    C.map (fun c => entryText (C.map (h ∘ firstIndex names)) 0 (firstIndex (C.map (resolve names)) c)) =
      C.map (h ∘ firstIndex names) := by
  refine List.map_congr_left fun c hcC => ?_
  by_cases hP : c ∈ C.map (resolve names)
  · obtain ⟨i, hi, hlt, hget⟩ := firstIndex_spec hP
    have hlt' : i < C.length := by simpa using hlt
    have hne : ((i : Nat) : Int) ≠ -1 := by omega
    rw [hi, entryText, if_neg hne, Int.toNat_ofNat, Nat.add_zero,
      List.getD_eq_getElem _ _ (by simpa using hlt'), List.getElem_map, Function.comp_apply]
    rw [List.getD_eq_getElem _ _ hlt, List.getElem_map] at hget
    unfold resolve at hget
    split_ifs at hget
    · rw [hget]; rfl
    · subst hget; exact absurd hcC hC
  · have hnc : c ∉ names := fun hc => hP (List.mem_map.mpr ⟨c, hcC, by simp [resolve, hc]⟩)
    simp [firstIndex, hP, hnc, entryText, hneg]

theorem map_entryText_range (sel : List Int) (h : Int → List Char) :
    (List.range sel.length).map (fun (i : Nat) => entryText (sel.map h) 0 (i : Int)) = sel.map h := by
  apply List.ext_getElem (by simp)
  intro i _ h₂
  have hi : i < sel.length := by simpa using h₂
  simp [List.getElem?_eq_getElem hi]

theorem selection_reselect (o : UserOpts) (names : List (List Char)) (h : Int → List Char)
    (hneg : h (-1) = []) (hcols : o.negate = false → [] ∉ o.columns) :
    (selection o ((selection o names).map (entryText names 0))).map
      (entryText ((selection o names).map h) 0) = (selection o names).map h := by
  by_cases hc : o.columns = []
  · have hs : ∀ l, selection o l = (List.range l.length).map Int.ofNat := fun l => by
      rw [selection, if_pos hc]
    rw [hs ((selection o names).map (entryText names 0)), List.map_map, List.length_map]
    exact map_entryText_range _ h
  cases hn : o.negate
  · have hs : ∀ l, selection o l = o.columns.map (firstIndex l) := fun l => by
      simp [selection, hc, hn]
    have hP : (selection o names).map (entryText names 0) = o.columns.map (resolve names) := by
      rw [hs, List.map_map]
      exact List.map_congr_left fun c _ => entryText_firstIndex names c
    rw [hP, hs, hs, List.map_map, List.map_map]
    exact reselect_columns names o.columns h hneg (hcols hn)
  · have hs : ∀ l, selection o l =
        ((List.range l.length).filter fun i => l.getD i [] ∉ o.columns).map Int.ofNat := fun l => by
      simp [selection, hc, hn]
    generalize hP : (selection o names).map (entryText names 0) = P
    have hkept : ∀ x ∈ P, x ∉ o.columns := by
      rw [← hP, hs]
      simp only [List.map_map, List.mem_map, List.mem_filter, List.mem_range, Function.comp_apply,
        decide_eq_true_eq]
      rintro x ⟨i, ⟨-, hni⟩, rfl⟩
      simpa using hni
    have hlen : P.length = (selection o names).length := by rw [← hP, List.length_map]
    rw [hs P, List.filter_eq_self.mpr fun i hi => ?_, List.map_map, hlen]
    · exact map_entryText_range _ h
    · have hi' : i < P.length := List.mem_range.mp hi
      simpa [List.getElem?_eq_getElem hi'] using hkept _ (List.getElem_mem hi')

variable {Tm : Type} (tl : TimeLib Tm)

/-- The text a time value is written as: what `strftime` left, or nothing when the calendar
gives no time. -/
def convText (o : UserOpts) (x : List Char) : List Char :=
  match convertTime tl o x with
  | .ok r => r.1
  | .error _ => []

theorem nul_not_mem_convText (o : UserOpts) (x : List Char) : nul ∉ convText tl o x := by
  unfold convText convertTime
  split
  · rename_i r h
    split at h
    · cases h
    · dsimp only at h
      split_ifs at h <;> cases h <;> exact nul_not_mem_cstr _
  · simp

namespace SubLog

def typeEntry (o : UserOpts) (b : SubLog) (v : Int) : List Char :=
  if o.timeconv ≠ 0 ∧ entryText b.types 0 v = "time".toList then "string".toList
  else entryText b.types 0 v

/-- Entry `v` of a data line with the fields `f` as written: its field, converted when time
conversion is on and the declared type is `time`. -/
def cutEntry (o : UserOpts) (b : SubLog) (f : List (List Char)) (v : Int) : List Char :=
  if o.timeconv ≠ 0 ∧ entryText b.types 0 v = "time".toList then convText tl o (entryText f 0 v)
  else entryText f 0 v

/-- A data line as written when no output separator is given: nothing when it has fewer than
`idx_range` fields. -/
def cutLine (o : UserOpts) (b : SubLog) (d : List Char) : List (List Char) :=
  if (d.splitOn b.sep).length < selectionRange o b.names then []
  else [[b.sep].intercalate ((selection o b.names).map (b.cutEntry tl o (d.splitOn b.sep)))]

/-- The sub-log written for `b` when every header block is shown and no output separator is
given: the same `#separator ` and other header lines, the selected names and shown types, and
the data lines as written. -/
def recut (o : UserOpts) (b : SubLog) : SubLog :=
  { b with
    fieldsText := [b.sep].intercalate ((selection o b.names).map (entryText b.names 0))
    typesText := [b.sep].intercalate ((selection o b.names).map (b.typeEntry o))
    data := b.data.flatMap (b.cutLine tl o) }

/-- A well-formed sub-log whose output reads back as a sub-log: some column is written, no
value begins with `#`, and under time conversion the separator is not a letter of `string` and
every value the selection writes in a `time` column converts, with `strftime`'s text fitting
`tbuf`, to a text holding neither the separator nor a newline and not beginning with `#`. -/
structure Recuttable (o : UserOpts) (b : SubLog) : Prop where
  wf : b.WellFormed
  selected : selection o b.names ≠ []
  values : ∀ d ∈ b.data, ∀ x ∈ d.splitOn b.sep, x.head? ≠ some '#'
  string : o.timeconv ≠ 0 → b.sep ∉ "string".toList
  conv : o.timeconv ≠ 0 → ∀ d ∈ b.data, ∀ v ∈ selection o b.names, entryText b.types 0 v = "time".toList →
    ∃ s, convertTime tl o (entryText (d.splitOn b.sep) 0 v) = .ok (s, []) ∧ b.sep ∉ s ∧ '\n' ∉ s ∧
      s.head? ≠ some '#'

theorem Recuttable.cut {o : UserOpts} {b : SubLog} (hb : b.Recuttable tl o) {d : List Char} (hd : d ∈ b.data)
    {v : Int} (hv : v ∈ selection o b.names) (h : o.timeconv ≠ 0 ∧ entryText b.types 0 v = "time".toList) :
    b.sep ∉ convText tl o (entryText (d.splitOn b.sep) 0 v) ∧ '\n' ∉ convText tl o (entryText (d.splitOn b.sep) 0 v) ∧
      (convText tl o (entryText (d.splitOn b.sep) 0 v)).head? ≠ some '#' := by
  obtain ⟨s, hs, hsep, hnl, hhead⟩ := hb.conv h.1 d hd v hv h.2
  rw [convText, hs]
  exact ⟨hsep, hnl, hhead⟩

@[simp] theorem sep_recut (o : UserOpts) (b : SubLog) : (b.recut tl o).sep = b.sep := rfl

@[simp] theorem sepLine_recut (o : UserOpts) (b : SubLog) : (b.recut tl o).sepLine = b.sepLine := rfl

@[simp] theorem others_recut (o : UserOpts) (b : SubLog) : (b.recut tl o).others = b.others := rfl

@[simp] theorem data_recut (o : UserOpts) (b : SubLog) :
    (b.recut tl o).data = b.data.flatMap (b.cutLine tl o) := rfl

end SubLog

theorem outputIndexes_cut {o : UserOpts} (hofs : o.ofs.headD nul = nul) {b : SubLog}
    (hwf : b.WellFormed) (lp : LogParams) (d : List Char)
    (hconv : o.timeconv ≠ 0 → ∀ v ∈ selection o b.names, entryText b.types 0 v = "time".toList →
      ∃ r, convertTime tl o (entryText (d.splitOn b.sep) 0 v) = .ok r) :
    ∃ errs, outputIndexes tl false d (b.params o lp) o = .ok ⟨b.cutLine tl o d, errs⟩ := by
  have hr : selectionRange o b.names ≤ b.names.length := selectionRange_le (splitOn_ne_nil _ _)
  have hlen : selectionRange o b.names ≤ b.types.length := hwf.types_length ▸ hr
  have hsep : cstr [outSep o b.sep] = [b.sep] := by
    rw [outSep_of_headD hofs, cstr_singleton hwf.sep_ne_nul]
  rw [outputIndexes_data tl d o (by simp; omega)
    (fun v hv => by simpa using selection_lt_range (by simpa using hv))
    (fun h => by simp [SubLog.params, typesParams, h, fieldsParams, hlen])]
  simp only [SubLog.params_ifs, SubLog.params_ofs, SubLog.params_idxRange, SubLog.params_outIndexes, hsep,
    SubLog.cutLine]
  split_ifs
  · exact ⟨_, rfl⟩
  · obtain ⟨fs, hfs, hmap⟩ := mapM_ok_fst (f := dataEntry tl o (b.params o lp) (d.splitOn b.sep))
      (g := b.cutEntry tl o (d.splitOn b.sep)) fun v hv => by
      rw [SubLog.params, @dataEntry_typesParams _ tl o (fieldsParams (installSep o lp b.sep) o b.names)
        b.types hlen _ v (selection_lt_range hv), SubLog.cutEntry, convText]
      split_ifs with hc
      · obtain ⟨r, hr⟩ := hconv hc.1 v hv hc.2
        rw [hr]
        exact ⟨r.2, rfl⟩
      · exact ⟨[], rfl⟩
    exact ⟨_, by rw [hfs, except_bind_ok, hmap]⟩

namespace SubLog

theorem shownFields_recut {o : UserOpts} (hofs : o.ofs.headD nul = nul) {b : SubLog}
    (hsel : selection o b.names ≠ []) : b.shownFields o = (b.recut tl o).fieldsLine := by
  rw [shownFields, outSep_of_headD hofs, intercalate_cons_ne _ _ (by simpa using hsel)]
  rfl

theorem shownTypes_recut {o : UserOpts} (hofs : o.ofs.headD nul = nul) {b : SubLog}
    (hsel : selection o b.names ≠ []) : b.shownTypes o = (b.recut tl o).typesLine := by
  rw [shownTypes, outSep_of_headD hofs, intercalate_cons_ne _ _ (by simpa using hsel)]
  rfl

end SubLog

theorem headersSeen_le_two {st : RunState} (h : st.headersSeen ≤ 2) : (enterHeader st).headersSeen ≤ 2 := by
  rw [enterHeader_headersSeen]
  split_ifs <;> omega

theorem runs_recut {o : UserOpts} (hshow : o.showhdr = 2) (hofs : o.ofs.headD nul = nul) {b : SubLog}
    (hb : b.Recuttable tl o) {st : RunState} (hp : st.prevFieldsLine = false) (hseen : st.headersSeen ≤ 2) :
    Runs tl o st (b.lines.map (· ++ ['\n']))
      ⟨b.params o st.lp, (enterHeader st).headersSeen, b.data.isEmpty, false⟩ (b.recut tl o).lines := by
  have hc := fun l hl => hb.wf.clean l (by simp [SubLog.lines] at hl ⊢; tauto)
  have hd := @runs_data _ tl o ⟨b.params o st.lp, (enterHeader st).headersSeen, true, false⟩
    b.data (b.cutLine tl o) rfl fun d hd => ⟨hb.wf.data d hd, (hc d (by simp [hd])).2,
      outputIndexes_cut tl hofs hb.wf _ d fun h v hv ht =>
        let ⟨_, hs, _⟩ := hb.conv h d hd v hv ht; ⟨_, hs⟩⟩
  refine Runs.of_eq tl (Runs.append tl (runs_header tl o hb.wf hp) hd) (by simp [SubLog.lines]) ?_ ?_
  · cases b.data <;> rfl
  · rw [if_pos (hshow ▸ headersSeen_le_two hseen), SubLog.shownFields_recut tl hofs hb.selected,
      SubLog.shownTypes_recut tl hofs hb.selected]
    simp [SubLog.lines]

theorem runs_recuts {o : UserOpts} (hshow : o.showhdr = 2) (hofs : o.ofs.headD nul = nul)
    {bs : List SubLog} (hbs : ∀ b ∈ bs, b.Recuttable tl o) {st : RunState}
    (hp : st.prevFieldsLine = false) (hseen : st.headersSeen ≤ 2) :
    ∃ st', Runs tl o st ((bs.flatMap SubLog.lines).map (· ++ ['\n'])) st'
      ((bs.map (SubLog.recut tl o)).flatMap SubLog.lines) := by
  induction bs generalizing st with
  | nil => exact ⟨st, Runs.nil tl o st⟩
  | cons b bs ih =>
    obtain ⟨st', h⟩ := @ih (fun b' hb' => hbs b' (List.mem_cons_of_mem _ hb'))
      ⟨b.params o st.lp, (enterHeader st).headersSeen, b.data.isEmpty, false⟩ rfl (headersSeen_le_two hseen)
    exact ⟨st', Runs.of_eq tl (Runs.append tl (runs_recut tl hshow hofs (hbs b (List.mem_cons_self _ _)) hp hseen) h)
      (by simp) rfl (by simp)⟩

namespace SubLog

variable {o : UserOpts} {b : SubLog}

theorem names_recut (hsel : selection o b.names ≠ []) :
    (b.recut tl o).names = (selection o b.names).map (entryText b.names 0) :=
  List.splitOn_intercalate _ _ (fun _ hl => by
    obtain ⟨v, -, rfl⟩ := List.mem_map.mp hl
    exact sep_not_mem_entryText _ _ v) (by simpa using hsel)

theorem types_recut (hsel : selection o b.names ≠ []) (hstr : o.timeconv ≠ 0 → b.sep ∉ "string".toList) :
    (b.recut tl o).types = (selection o b.names).map (b.typeEntry o) :=
  List.splitOn_intercalate _ _ (fun _ hl => by
    obtain ⟨v, -, rfl⟩ := List.mem_map.mp hl
    unfold typeEntry
    split_ifs with h
    · exact hstr h.1
    · exact sep_not_mem_entryText _ _ v) (by simpa using hsel)

theorem recut_no_time (hsel : selection o b.names ≠ []) (hstr : o.timeconv ≠ 0 → b.sep ∉ "string".toList)
    (v : Int) : ¬(o.timeconv ≠ 0 ∧ entryText (b.recut tl o).types 0 v = "time".toList) := by
  rintro ⟨htc, ht⟩
  rcases entryText_mem (b.recut tl o).types 0 v with he | he
  · rw [he] at ht
    exact absurd ht (by decide)
  · rw [ht, types_recut tl hsel hstr] at he
    obtain ⟨w, -, hw⟩ := List.mem_map.mp he
    unfold typeEntry at hw
    split_ifs at hw with hw'
    · exact absurd hw (by decide)
    · exact hw' ⟨htc, hw⟩

theorem typeEntry_recut (hsel : selection o b.names ≠ []) (hstr : o.timeconv ≠ 0 → b.sep ∉ "string".toList) :
    (b.recut tl o).typeEntry o = entryText (b.recut tl o).types 0 :=
  funext fun v => if_neg (recut_no_time tl hsel hstr v)

theorem cutEntry_recut (hsel : selection o b.names ≠ []) (hstr : o.timeconv ≠ 0 → b.sep ∉ "string".toList)
    (f : List (List Char)) : (b.recut tl o).cutEntry tl o f = entryText f 0 :=
  funext fun v => if_neg (recut_no_time tl hsel hstr v)

theorem sep_not_mem_cutEntry (hb : b.Recuttable tl o) {d : List Char} (hd : d ∈ b.data) {v : Int}
    (hv : v ∈ selection o b.names) : b.sep ∉ b.cutEntry tl o (d.splitOn b.sep) v := by
  unfold cutEntry
  split_ifs with h
  · exact (hb.cut tl hd hv h).1
  · exact sep_not_mem_entryText _ _ v

theorem head_cutEntry (hb : b.Recuttable tl o) {d : List Char} (hd : d ∈ b.data) {v : Int}
    (hv : v ∈ selection o b.names) : (b.cutEntry tl o (d.splitOn b.sep) v).head? ≠ some '#' := by
  unfold cutEntry
  split_ifs with h
  · exact (hb.cut tl hd hv h).2.2
  · rcases entryText_mem (d.splitOn b.sep) 0 v with he | he
    · simp [he]
    · exact hb.values d hd _ he

theorem mem_cutLine {d d' : List Char} (h : d' ∈ b.cutLine tl o d) :
    d' = [b.sep].intercalate ((selection o b.names).map (b.cutEntry tl o (d.splitOn b.sep))) := by
  unfold cutLine at h
  split_ifs at h
  · simp at h
  · exact List.mem_singleton.mp h

theorem splitOn_cutLine (hb : b.Recuttable tl o) {d d' : List Char} (hd : d ∈ b.data)
    (h : d' ∈ b.cutLine tl o d) :
    d'.splitOn b.sep = (selection o b.names).map (b.cutEntry tl o (d.splitOn b.sep)) := by
  rw [mem_cutLine tl h]
  exact List.splitOn_intercalate _ _ (fun _ hl => by
    obtain ⟨v, hv, rfl⟩ := List.mem_map.mp hl
    exact sep_not_mem_cutEntry tl hb hd hv) (by simpa using hb.selected)

theorem wellFormed_recut (hb : b.Recuttable tl o) : (b.recut tl o).WellFormed := by
  have hgood : ∀ l ∈ b.lines, ∀ c ∈ l, c ≠ '\n' ∧ c ≠ nul := fun l hl => clean_iff.mp (hb.wf.clean l hl)
  have hstring : ∀ c ∈ "string".toList, c ≠ '\n' ∧ c ≠ nul := by decide
  have hsep := hgood _ (by simp [lines]) b.sep (by simp [fieldsLine] : b.sep ∈ b.fieldsLine)
  refine ⟨fun l hl => clean_iff.mpr ?_, hb.wf.sep_fields, hb.wf.sep_types, hb.wf.others, ?_, ?_⟩
  · simp only [lines, sepLine_recut, others_recut, data_recut, List.cons_append, List.mem_cons,
      List.mem_append, List.mem_flatMap] at hl
    rcases hl with rfl | hl | rfl | rfl | ⟨d, hd, hl⟩
    · exact hgood _ (by simp [lines])
    · exact hgood _ (by simp [lines, hl])
    · intro c hc
      refine (mem_headerLine hc fun v c hc => .inl (mem_of_mem_entryText hc)).elim
        (hgood b.fieldsLine (by simp [lines]) c) (hstring c)
    · intro c hc
      refine (mem_headerLine hc fun v c hc => ?_).elim (hgood b.typesLine (by simp [lines]) c) (hstring c)
      unfold typeEntry at hc
      split_ifs at hc
      · exact .inr hc
      · exact .inl (mem_of_mem_entryText hc)
    · rw [mem_cutLine tl hl]
      refine forall_mem_intercalate (P := fun c => c ≠ '\n' ∧ c ≠ nul) hsep (fun x hx c hc => ?_)
      obtain ⟨v, hv, rfl⟩ := List.mem_map.mp hx
      unfold cutEntry at hc
      split_ifs at hc with h
      · exact ⟨fun e => (hb.cut tl hd hv h).2.1 (e ▸ hc), fun e => nul_not_mem_convText tl o _ (e ▸ hc)⟩
      · exact hgood d (by simp [lines, hd]) c (mem_of_mem_entryText hc)
  · rw [types_recut tl hb.selected hb.string, names_recut tl hb.selected, List.length_map, List.length_map]
  · intro d' hd'
    obtain ⟨d, hd, hl⟩ := List.mem_flatMap.mp hd'
    rw [classify_eq_data, isHdr, mem_cutLine tl hl, decide_eq_false_iff_not]
    exact head?_intercalate_ne (fun h => hb.wf.sep_fields (by rw [h]; decide)) fun x hx => by
      obtain ⟨v, hv, rfl⟩ := List.mem_map.mp hx
      exact head_cutEntry tl hb hd hv

theorem cutLine_recut (hb : b.Recuttable tl o) (hcols : o.negate = false → [] ∉ o.columns)
    {d d' : List Char} (hd : d ∈ b.data) (h : d' ∈ b.cutLine tl o d) : (b.recut tl o).cutLine tl o d' = [d'] := by
  have hF := splitOn_cutLine tl hb hd h
  have hr := @selectionRange_le o (b.recut tl o).names (splitOn_ne_nil _ _)
  rw [names_recut tl hb.selected, List.length_map] at hr
  rw [cutLine, sep_recut, hF, cutEntry_recut tl hb.selected hb.string, names_recut tl hb.selected,
    if_neg (by simpa using hr), selection_reselect o b.names _ (by simp [cutEntry, entryText]) hcols,
    mem_cutLine tl h]

theorem recuttable_recut (hb : b.Recuttable tl o) (hcols : o.negate = false → [] ∉ o.columns) :
    (b.recut tl o).Recuttable tl o := by
  refine ⟨wellFormed_recut tl hb, fun h => ?_, fun d' hd' x hx => ?_, hb.string,
    fun h _ _ v _ ht => absurd ⟨h, ht⟩ (recut_no_time tl hb.selected hb.string v)⟩
  · have := selection_reselect o b.names (entryText b.names 0) rfl hcols
    rw [← names_recut tl hb.selected, h, List.map_nil, names_recut tl hb.selected] at this
    exact hb.selected (List.map_eq_nil_iff.mp this.symm)
  · obtain ⟨d, hd, hl⟩ := List.mem_flatMap.mp hd'
    rw [sep_recut, splitOn_cutLine tl hb hd hl] at hx
    obtain ⟨v, hv, rfl⟩ := List.mem_map.mp hx
    exact head_cutEntry tl hb hd hv

theorem recut_recut (hb : b.Recuttable tl o) (hcols : o.negate = false → [] ∉ o.columns) :
    (b.recut tl o).recut tl o = b.recut tl o := by
  rw [recut, sep_recut, typeEntry_recut tl hb.selected hb.string, types_recut tl hb.selected hb.string,
    names_recut tl hb.selected, selection_reselect o b.names _ rfl hcols,
    selection_reselect o b.names _ (by simp [typeEntry, entryText]) hcols, data_recut,
    flatMap_of_singleton fun d' hd' => ?_]
  · rfl
  · obtain ⟨d, hd, hl⟩ := List.mem_flatMap.mp hd'
    exact cutLine_recut tl hb hcols hd hl

end SubLog

/-- With every header block shown and no output separator given, `bro_cut` processes a stream of
sub-logs it can re-cut to the end and writes their re-cuts. -/
theorem broCut_recuts {o : UserOpts} (hshow : o.showhdr = 2) (hofs : o.ofs.headD nul = nul)
    {bs : List SubLog} (hbs : ∀ b ∈ bs, b.Recuttable tl o) :
    ∃ st err, broCut tl o (render (bs.flatMap SubLog.lines)) =
      .running st ((bs.map (SubLog.recut tl o)).flatMap SubLog.lines) err := by
  obtain ⟨st, h⟩ := @runs_recuts _ tl o hshow hofs bs hbs RunState.init rfl (Nat.zero_le _)
  refine ⟨st, broCut_of_runs tl h fun l hl => ?_⟩
  obtain ⟨b, hb, hl⟩ := List.mem_flatMap.mp hl
  exact ((hbs b hb).wf.clean l hl).1

/-- Re-cutting is idempotent: with every header block shown, no output separator given and no
empty name requested outside negate mode, `bro_cut` run on a stream of sub-logs it can re-cut
writes their re-cuts, and run on what it wrote it writes exactly that again, to the end of
the stream. -/
theorem recut_idempotent (o : UserOpts) (hshow : o.showhdr = 2) (hofs : o.ofs.headD nul = nul)
    (hcols : o.negate = false → [] ∉ o.columns) (bs : List SubLog) (hbs : ∀ b ∈ bs, b.Recuttable tl o) :
    (∃ st err, broCut tl o (render (bs.flatMap SubLog.lines)) =
      .running st ((bs.map (SubLog.recut tl o)).flatMap SubLog.lines) err) ∧
    ∃ st err, broCut tl o (render ((bs.map (SubLog.recut tl o)).flatMap SubLog.lines)) =
      .running st ((bs.map (SubLog.recut tl o)).flatMap SubLog.lines) err := by
  have hbs' : ∀ b ∈ bs.map (SubLog.recut tl o), b.Recuttable tl o := by
    simp only [List.mem_map]
    rintro _ ⟨b, hb, rfl⟩
    exact SubLog.recuttable_recut tl (hbs b hb) hcols
  have hsame : (bs.map (SubLog.recut tl o)).map (SubLog.recut tl o) = bs.map (SubLog.recut tl o) := by
    rw [List.map_map]
    exact List.map_congr_left fun b hb => SubLog.recut_recut tl (hbs b hb) hcols
  have hsecond := broCut_recuts tl hshow hofs hbs'
  rw [hsame] at hsecond
  exact ⟨broCut_recuts tl hshow hofs hbs, hsecond⟩

theorem utcRange_convertTime (o : UserOpts) {x : List Char} (h : yearFits (strtol x 10)) :
    convertTime TimeLib.utcRange o x = .ok (['T'], []) := by
  unfold convertTime TimeLib.utcRange
  split_ifs <;> simp [h] <;> rfl

/-- Under the calendar of the C library's range, converting with `-d`. -/
theorem recut_idempotent_sample :
    sampleLog.Recuttable TimeLib.utcRange ⟨2, false, 1, ["uid".toList, "ts".toList], [], "%s".toList⟩ ∧
      ∃ st err, broCut TimeLib.utcRange ⟨2, false, 1, ["uid".toList, "ts".toList], [], "%s".toList⟩
        (render (([sampleLog].map (SubLog.recut TimeLib.utcRange
          ⟨2, false, 1, ["uid".toList, "ts".toList], [], "%s".toList⟩)).flatMap SubLog.lines)) =
        .running st (([sampleLog].map (SubLog.recut TimeLib.utcRange
          ⟨2, false, 1, ["uid".toList, "ts".toList], [], "%s".toList⟩)).flatMap SubLog.lines) err :=
  have hfit : ∀ d ∈ sampleLog.data,
      ∀ v ∈ selection ⟨2, false, 1, ["uid".toList, "ts".toList], [], "%s".toList⟩ sampleLog.names,
      entryText sampleLog.types 0 v = "time".toList →
        yearFits (strtol (entryText (d.splitOn sampleLog.sep) 0 v) 10) = true := by decide
  have hb : sampleLog.Recuttable TimeLib.utcRange ⟨2, false, 1, ["uid".toList, "ts".toList], [], "%s".toList⟩ :=
    ⟨⟨by decide, by decide, by decide, by decide, by decide, by decide⟩, by decide, by decide,
      fun _ => by decide, fun _ d hd v hv ht =>
        ⟨['T'], utcRange_convertTime _ (hfit d hd v hv ht), by decide, by decide, by decide⟩⟩
  ⟨hb, (recut_idempotent TimeLib.utcRange ⟨2, false, 1, ["uid".toList, "ts".toList], [], "%s".toList⟩ rfl rfl
    (fun _ => by decide) [sampleLog] fun b hb' => by rw [List.mem_singleton.mp hb']; exact hb).2⟩

/-- Every field excluded: the first run writes a `#fields` and a `#types` line with no
separator and an empty data line; the second run reads the `#fields` line as one field named
by the empty string, keeps it, skips both header lines as too short, and writes the data line
alone. -/
theorem recut_empty_selection_counterexample :
    (broCut TimeLib.stub ⟨2, true, 0, ["a".toList], [], []⟩
      "#separator \\x09\n#fields\ta\n#types\tstring\n1\n".toList).stdout =
      "#separator \\x09\n#fields\n#types\n\n".toList ∧
    (broCut TimeLib.stub ⟨2, true, 0, ["a".toList], [], []⟩
      "#separator \\x09\n#fields\n#types\n\n".toList).stdout = "#separator \\x09\n\n".toList := by
  decide

end BroCut
