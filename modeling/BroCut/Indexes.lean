import BroCut.Params

/-!
# `find_output_indexes` and `find_timecol`

`find_output_indexes` counts the fields of a `#fields` payload with `strchr`, splits a copy
with `strsep`, and resolves the requested columns against the names; `find_timecol` flags
the `time` entries of a `#types` payload. With a non-NUL separator the count agrees with
the split, every read stays inside `tmp_fields`, and the result is `selection`: each index
is `-1` or below `idx_range`, and `idx_range` is at most the field count
(`findOutputIndexes_spec`). With the NUL separator the counting loop finds the terminator,
steps past it and reads on (`countSeps_nul`).
-/

namespace BroCut

/-- `string_index` from position `i`: the first of `size` entries equal to `needle`. -/
def stringIndexFrom (needle : List Char) : Nat → List (List Char) → Nat → Except Undefined Int
  | _, _, 0 => .ok (-1)
  | _, [], _ + 1 => .error .outOfBounds
  | i, h :: t, n + 1 => if h = needle then .ok i else stringIndexFrom needle (i + 1) t n

def stringIndex (haystack : List (List Char)) (haystackSize : Nat) (needle : List Char) :
    Except Undefined Int :=
  stringIndexFrom needle 0 haystack haystackSize

/-- The counting loop: `strchr` to the next `sep`, the terminator counting as NUL, then
`field++`. When `sep` is NUL the terminator matches and the next `strchr` reads past it. C
counts in the `int` `num_fields`, which the model leaves unbounded (`undefined_sources`
assumes lines short enough for it). -/
def countSeps (sep : Char) : List Char → Except Undefined Nat
  | [] => if sep = nul then .error .pastTerminator else .ok 0
  | c :: cs => if c = sep then (countSeps sep cs).map (· + 1) else countSeps sep cs

def keepIf (test : Nat → Except Undefined Bool) : List Nat → Except Undefined (List Nat)
  | [] => .ok []
  | i :: is => do
    let b ← test i
    let r ← keepIf test is
    return if b then i :: r else r

def findOutputIndexes (line : List Char) (lp : LogParams) (o : UserOpts) :
    Except Undefined LogParams := do
  let n ← countSeps lp.ifs line
  let numFields := n + 1
  let lp := { lp with numFields := numFields, tmpAlloc := numFields + 1 }
  if o.columns = [] then
    return { lp with outIndexes := (List.range numFields).map Int.ofNat, outAlloc := numFields,
                     idxRange := numFields }
  else
    let tmp := line.splitOn lp.ifs
    if numFields + 1 < tmp.length then .error .outOfBounds
    else if !o.negate then
      let idx ← o.columns.mapM (stringIndex tmp numFields)
      return { lp with outIndexes := idx, outAlloc := o.columns.length,
                       idxRange := (idx.foldl max 0 + 1).toNat }
    else
      let kept ← keepIf (fun i => do
        let j ← stringIndex o.columns o.columns.length (← readAt tmp i)
        return decide (j = -1)) (List.range numFields)
      return { lp with outIndexes := kept.map Int.ofNat, outAlloc := numFields,
                       idxRange := kept.foldl max 0 + 1 }

/-- `none` is the failure return, when the payload has fewer than `idx_range` entries. -/
def findTimecol (line : List Char) (lp : LogParams) : Option LogParams :=
  let fields := strsepN lp.ifs lp.idxRange (some line)
  if fields.length < lp.idxRange then none
  else some { lp with timeCols := fields.map fun f => decide (f = "time".toList) }

/-- The first position of `c` among `names`, or `-1`. -/
def firstIndex (names : List (List Char)) (c : List Char) : Int :=
  if c ∈ names then names.findIdx (fun n => decide (n = c)) else -1

/-- The positions a header's names select: all of them when no column is requested; the
first position of each requested name, or `-1`; negated, those of the names not
requested. -/
def selection (o : UserOpts) (names : List (List Char)) : List Int :=
  if o.columns = [] then (List.range names.length).map Int.ofNat
  else if !o.negate then o.columns.map (firstIndex names)
  else ((List.range names.length).filter fun i => names.getD i [] ∉ o.columns).map Int.ofNat

/-- The `idx_range` of a selection: the field count, or one more than its largest index. -/
def selectionRange (o : UserOpts) (names : List (List Char)) : Nat :=
  if o.columns = [] then names.length else ((selection o names).foldl max 0 + 1).toNat

def selectionAlloc (o : UserOpts) (names : List (List Char)) : Nat :=
  if o.columns ≠ [] ∧ !o.negate then o.columns.length else names.length

/-- The parameters `find_output_indexes` leaves for the names `names`. -/
def fieldsParams (lp : LogParams) (o : UserOpts) (names : List (List Char)) : LogParams :=
  { lp with
    numFields := names.length, tmpAlloc := names.length + 1, outIndexes := selection o names,
    outAlloc := selectionAlloc o names, idxRange := selectionRange o names }

theorem le_foldl_max (l : List Int) (a : Int) : a ≤ l.foldl max a := by
  induction l generalizing a with
  | nil => exact Int.le_refl a
  | cons x xs ih => exact Int.le_trans (by omega) (ih (max a x))

theorem le_foldl_max_of_mem {l : List Int} {x : Int} (hx : x ∈ l) (a : Int) :
    x ≤ l.foldl max a := by
  induction l generalizing a with
  | nil => simp at hx
  | cons y ys ih =>
    rcases List.mem_cons.mp hx with rfl | hx
    · exact Int.le_trans (by omega) (le_foldl_max _ (max a x))
    · exact ih hx _

theorem foldl_max_le {l : List Int} {a b : Int} (ha : a ≤ b) (hl : ∀ x ∈ l, x ≤ b) :
    l.foldl max a ≤ b := by
  induction l generalizing a with
  | nil => exact ha
  | cons y ys ih =>
    have := hl y (List.mem_cons_self _ _)
    exact ih (by omega) fun x hx => hl x (List.mem_cons_of_mem _ hx)

theorem stringIndexFrom_spec (needle : List Char) (i : Nat) {hay : List (List Char)} {n : Nat}
    (hn : n ≤ hay.length) :
    stringIndexFrom needle i hay n =
      .ok (if needle ∈ hay.take n then
        (((hay.take n).findIdx fun x => decide (x = needle)) + i : Nat) else -1) := by
  induction hay generalizing i n with
  | nil =>
    obtain rfl : n = 0 := by simpa using hn
    rfl
  | cons h t ih =>
    cases n with
    | zero => rfl
    | succ n =>
      simp only [stringIndexFrom, List.take_succ_cons, List.mem_cons, List.findIdx_cons]
      by_cases hh : h = needle
      · simp [hh]
      · rw [if_neg hh, ih (i + 1) (by simpa using hn)]
        simp [hh, Ne.symm hh, Nat.add_right_comm _ 1 i, Nat.add_assoc]

theorem stringIndex_spec (hay : List (List Char)) (needle : List Char) :
    stringIndex hay hay.length needle = .ok (firstIndex hay needle) := by
  simp [stringIndex, stringIndexFrom_spec needle 0 le_rfl, firstIndex]

theorem countSeps_spec {sep : Char} (h : sep ≠ nul) (s : List Char) :
    countSeps sep s = .ok (s.count sep) := by
  induction s with
  | nil => simp [countSeps, h]
  | cons c cs ih =>
    by_cases hc : c = sep
    · simp [countSeps, hc, ih, Except.map]
    · simp [countSeps, hc, ih, List.count_cons, Ne.symm hc]

/-- With the NUL separator the count never stops inside a C string. -/
theorem countSeps_nul {s : List Char} (h : nul ∉ s) : countSeps nul s = .error .pastTerminator := by
  induction s with
  | nil => simp [countSeps]
  | cons c cs ih =>
    have hc : c ≠ nul := fun e => h (e ▸ List.mem_cons_self _ _)
    simp [countSeps, hc, ih fun e => h (List.mem_cons_of_mem _ e)]

theorem keepIf_spec {test : Nat → Except Undefined Bool} {q : Nat → Bool} {l : List Nat}
    (h : ∀ i ∈ l, test i = .ok (q i)) : keepIf test l = .ok (l.filter q) := by
  induction l with
  | nil => rfl
  | cons i is ih =>
    simp only [keepIf, h i (List.mem_cons_self _ _), ih fun j hj => h j (List.mem_cons_of_mem _ hj),
      except_ok_bind, List.filter_cons]
    rfl

theorem mapM_spec {α β : Type} {f : α → Except Undefined β} {g : α → β} {l : List α}
    (h : ∀ x ∈ l, f x = .ok (g x)) : l.mapM f = .ok (l.map g) := by
  induction l with
  | nil => rfl
  | cons x xs ih =>
    rw [List.mapM_cons, h x (List.mem_cons_self _ _), ih fun y hy => h y (List.mem_cons_of_mem _ hy)]
    rfl

theorem mapM_congr {α β ε : Type} {f g : α → Except ε β} {l : List α}
    (h : ∀ x ∈ l, f x = g x) : l.mapM f = l.mapM g := by
  induction l with
  | nil => rfl
  | cons x xs ih =>
    rw [List.mapM_cons, List.mapM_cons, h x (List.mem_cons_self _ _),
      ih fun y hy => h y (List.mem_cons_of_mem _ hy)]

theorem mem_of_mapM_ok {α β ε : Type} {f : α → Except ε β} {l : List α} {bs : List β}
    (h : l.mapM f = .ok bs) : ∀ b ∈ bs, ∃ x ∈ l, f x = .ok b := by
  induction l generalizing bs with
  | nil => cases h; simp
  | cons x xs ih =>
    rw [List.mapM_cons] at h
    obtain ⟨b, hx, h⟩ := except_bind_eq_ok h
    obtain ⟨bs', hxs, h⟩ := except_bind_eq_ok h
    cases h
    intro b' hb'
    rcases List.mem_cons.mp hb' with rfl | hb'
    · exact ⟨x, List.mem_cons_self _ _, hx⟩
    · obtain ⟨y, hy, hfy⟩ := ih hxs b' hb'
      exact ⟨y, List.mem_cons_of_mem _ hy, hfy⟩

theorem mapM_error_mem {α β ε : Type} {f : α → Except ε β} {l : List α} {e : ε}
    (h : l.mapM f = .error e) : ∃ x ∈ l, f x = .error e := by
  induction l with
  | nil => cases h
  | cons x xs ih =>
    rw [List.mapM_cons] at h
    rcases except_bind_eq_error h with hx | ⟨b, -, h⟩
    · exact ⟨x, List.mem_cons_self _ _, hx⟩
    rcases except_bind_eq_error h with hxs | ⟨bs, -, h⟩
    · obtain ⟨y, hy, hfy⟩ := ih hxs
      exact ⟨y, List.mem_cons_of_mem _ hy, hfy⟩
    · cases h

theorem firstIndex_eq_neg_one {names : List (List Char)} {c : List Char} :
    firstIndex names c = -1 ↔ c ∉ names := by
  unfold firstIndex
  split_ifs with h <;> simp [h]

theorem foldl_max_natCast (l : List Nat) (a : Nat) :
    (l.map Int.ofNat).foldl max (a : Int) = ((l.foldl max a : Nat) : Int) := by
  induction l generalizing a with
  | nil => rfl
  | cons x xs ih =>
    have hmax : ((max a x : Nat) : Int) = max (a : Int) x := by omega
    simpa [hmax] using ih (max a x)

theorem foldl_max_natCast_zero (l : List Nat) :
    (l.map Int.ofNat).foldl max 0 = ((l.foldl max 0 : Nat) : Int) :=
  foldl_max_natCast l 0

/-- With a non-NUL separator, `find_output_indexes` counts exactly the fields `strsep`
splits, reads nothing outside them, and resolves the columns as `selection` says. -/
theorem findOutputIndexes_spec (line : List Char) (lp : LogParams) (o : UserOpts)
    (h : lp.ifs ≠ nul) :
    findOutputIndexes line lp o = .ok (fieldsParams lp o (line.splitOn lp.ifs)) := by
  have hk : line.count lp.ifs + 1 = (line.splitOn lp.ifs).length := (length_splitOn _ _).symm
  simp only [findOutputIndexes, countSeps_spec h, except_ok_bind, hk]
  by_cases hc : o.columns = []
  · simp [hc, fieldsParams, selection, selectionAlloc, selectionRange]
  · rw [if_neg hc, if_neg (by omega)]
    cases hn : o.negate
    · simp only [Bool.not_false, if_true]
      rw [mapM_spec fun c _ => stringIndex_spec _ c]
      simp [fieldsParams, selection, selectionAlloc, selectionRange, hc, hn]
    · simp only [Bool.not_true]
      rw [keepIf_spec (q := fun i => decide ((line.splitOn lp.ifs).getD i [] ∉ o.columns))]
      · simp [fieldsParams, selection, selectionAlloc, selectionRange, hc, hn, foldl_max_natCast_zero]
      · intro i hi
        have hi' : i < (line.splitOn lp.ifs).length := List.mem_range.mp hi
        simp [readAt_of_lt hi', stringIndex_spec, firstIndex_eq_neg_one, List.getElem?_eq_getElem hi']

theorem findOutputIndexes_ok {line : List Char} {lp lp' : LogParams} {o : UserOpts}
    (hl : nul ∉ line) (h : findOutputIndexes line lp o = .ok lp') :
    lp.ifs ≠ nul ∧ lp' = fieldsParams lp o (line.splitOn lp.ifs) := by
  by_cases hs : lp.ifs = nul
  · simp [findOutputIndexes, hs, countSeps_nul hl] at h
  · rw [findOutputIndexes_spec line lp o hs] at h
    cases h
    exact ⟨hs, rfl⟩

theorem findOutputIndexes_numFields {line : List Char} {lp lp' : LogParams} {o : UserOpts}
    (hl : nul ∉ line) (h : findOutputIndexes line lp o = .ok lp') : lp'.numFields ≤ line.length + 1 := by
  rw [(findOutputIndexes_ok hl h).2]
  simp only [fieldsParams, length_splitOn]
  exact Nat.succ_le_succ (List.count_le_length _ _)

theorem findTimecol_spec (line : List Char) (lp : LogParams) :
    findTimecol line lp =
      if (line.splitOn lp.ifs).length < lp.idxRange then none
      else some { lp with timeCols :=
        ((line.splitOn lp.ifs).take lp.idxRange).map fun f => decide (f = "time".toList) } := by
  simp only [findTimecol, strsepN_some, List.length_take]
  by_cases h : (line.splitOn lp.ifs).length < lp.idxRange
  · rw [if_pos (by omega), if_pos h]
  · simp [h, Nat.min_eq_left (Nat.le_of_not_lt h)]

theorem findTimecol_some {line : List Char} {lp lp' : LogParams} (h : findTimecol line lp = some lp') :
    lp' = { lp with timeCols := lp'.timeCols } := by
  rw [findTimecol_spec] at h
  split_ifs at h
  cases h
  rfl

theorem firstIndex_lt (names : List (List Char)) (c : List Char) :
    firstIndex names c < names.length := by
  unfold firstIndex
  split_ifs with h
  · exact Int.ofNat_lt.mpr (List.findIdx_lt_length_of_exists ⟨c, h, by simp⟩)
  · omega

theorem mem_selection {o : UserOpts} {names : List (List Char)} {v : Int}
    (hv : v ∈ selection o names) : (v = -1 ∨ 0 ≤ v) ∧ v < names.length := by
  unfold selection at hv
  split_ifs at hv
  · obtain ⟨i, hi, rfl⟩ := List.mem_map.mp hv
    exact ⟨.inr (Int.ofNat_nonneg i), by simpa using hi⟩
  · obtain ⟨c, -, rfl⟩ := List.mem_map.mp hv
    refine ⟨?_, firstIndex_lt names c⟩
    unfold firstIndex; split_ifs <;> omega
  · obtain ⟨i, hi, rfl⟩ := List.mem_map.mp hv
    exact ⟨.inr (Int.ofNat_nonneg i), by simpa using (List.mem_filter.mp hi).1⟩

theorem selection_lt_range {o : UserOpts} {names : List (List Char)} {v : Int}
    (hv : v ∈ selection o names) : v = -1 ∨ (0 ≤ v ∧ v < selectionRange o names) := by
  obtain ⟨h0 | h0, hlt⟩ := mem_selection hv
  · exact .inl h0
  · refine .inr ⟨h0, ?_⟩
    unfold selectionRange
    split_ifs
    · exact hlt
    · have := le_foldl_max_of_mem hv 0
      have := le_foldl_max (selection o names) 0
      omega

theorem selectionRange_le {o : UserOpts} {names : List (List Char)} (hne : names ≠ []) :
    selectionRange o names ≤ names.length := by
  unfold selectionRange
  split_ifs
  · exact le_rfl
  · have hpos : 0 < names.length := List.length_pos.mpr hne
    have := foldl_max_le (l := selection o names) (a := 0) (b := (names.length : Int) - 1) (by omega)
      fun v hv => by have := (mem_selection hv).2; omega
    omega

theorem length_selection_le (o : UserOpts) (names : List (List Char)) :
    (selection o names).length ≤ selectionAlloc o names := by
  unfold selection selectionAlloc
  split_ifs <;> simp_all
  exact (List.length_filter_le _ _).trans (by simp)

end BroCut
