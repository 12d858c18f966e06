import Mathlib.Data.List.Basic

/-!
# C strings, `strncmp` and `strsep`

bro-cut keeps each line as a C string in its `getline` buffer. A byte of the stream is a
`Char`; the text of a buffer runs up to its first NUL (`cstr`), and a pointer into a C
string is the list of bytes from that point on. `strsep` with the one-byte delimiter
string `ifs` cuts the first field off (`breakSep`); the fields that repeated calls return
until it gives NULL are `List.splitOn` (`strsepN_some`), which the rest of the model uses.
An array read with an `int` index outside the array is undefined behaviour (`readAt`).
-/

namespace BroCut

def nul : Char := '\x00'

/-- The C string a buffer holds. -/
def cstr (s : List Char) : List Char := s.takeWhile (· != nul)

/-- `strncmp(line, tag, strlen(tag)) == 0`. -/
def hasPrefix (line : List Char) (tag : String) : Bool := tag.toList.isPrefixOf line

/-- The reasons a run has undefined behaviour: an array read or write outside its
allocation, the field-counting loop of `find_output_indexes` reading past the terminator
of its string, and `strftime` handed the NULL result of `localtime` or `gmtime`. -/
inductive Undefined where
  | outOfBounds
  | pastTerminator
  | nullTm
  deriving DecidableEq, Repr

/-- `a[i]` for an `int` index. -/
def readAt {α : Type} (a : List α) (i : Int) : Except Undefined α :=
  if 0 ≤ i then (a[i.toNat]?).elim (.error .outOfBounds) .ok else .error .outOfBounds

@[simp] theorem except_ok_bind {ε α β : Type} (a : α) (f : α → Except ε β) :
    (Except.ok a >>= f) = f a := rfl

@[simp] theorem except_pure {ε α : Type} (a : α) : (pure a : Except ε α) = .ok a := rfl

@[simp] theorem except_error_bind {ε α β : Type} (e : ε) (f : α → Except ε β) :
    (Except.error e >>= f) = .error e := rfl

@[simp] theorem except_bind_ok {ε α β : Type} (a : α) (f : α → Except ε β) :
    (Except.ok a : Except ε α).bind f = f a := rfl

@[simp] theorem except_bind_error {ε α β : Type} (e : ε) (f : α → Except ε β) :
    (Except.error e : Except ε α).bind f = .error e := rfl

theorem except_bind_eq_ok {ε α β : Type} {x : Except ε α} {f : α → Except ε β} {b : β}
    (h : x.bind f = .ok b) : ∃ a, x = .ok a ∧ f a = .ok b := by
  cases x with
  | error e => cases h
  | ok a => exact ⟨a, rfl, h⟩

theorem except_bind_eq_error {ε α β : Type} {x : Except ε α} {f : α → Except ε β} {e : ε}
    (h : x.bind f = .error e) : x = .error e ∨ ∃ a, x = .ok a ∧ f a = .error e := by
  cases x with
  | error e' => cases h; exact .inl rfl
  | ok a => exact .inr ⟨a, rfl, h⟩

/-- One `strsep` on a non-NULL pointer into a C string: the field up to the first `sep`,
and the pointer just past that `sep`, or NULL when the string has none. -/
def breakSep (sep : Char) : List Char → List Char × Option (List Char)
  | [] => ([], none)
  | c :: cs =>
    if c = sep then ([], some cs) else
    let r := breakSep sep cs
    (c :: r.1, r.2)

/-- `n` calls of `strsep`, stopping at the first NULL: the fields it returned. -/
def strsepN (sep : Char) : Nat → Option (List Char) → List (List Char)
  | 0, _ => []
  | _ + 1, none => []
  | n + 1, some s => (breakSep sep s).1 :: strsepN sep n (breakSep sep s).2

theorem hasPrefix_iff (line : List Char) (tag : String) :
    hasPrefix line tag = true ↔ tag.toList <+: line := by
  simp [hasPrefix, List.isPrefixOf_iff_prefix]

theorem cstr_of_nul_not_mem {s : List Char} (h : nul ∉ s) : cstr s = s := by
  refine List.takeWhile_eq_self_iff.mpr fun c hc => ?_
  simpa using ne_of_mem_of_not_mem hc h

theorem nul_not_mem_cstr (s : List Char) : nul ∉ cstr s := fun h => by
  simpa using List.mem_takeWhile_imp h

@[simp] theorem readAt_natCast {α : Type} (a : List α) (i : Nat) :
    readAt a i = (a[i]?).elim (.error .outOfBounds) .ok := by
  rw [readAt, if_pos (Int.ofNat_nonneg i), Int.toNat_ofNat]

theorem readAt_of_lt {α : Type} {a : List α} {i : Nat} (h : i < a.length) :
    readAt a i = .ok a[i] := by
  simp [List.getElem?_eq_getElem h]

theorem readAt_neg_one {α : Type} (a : List α) : readAt a (-1) = .error .outOfBounds := rfl

theorem mem_of_readAt {α : Type} {a : List α} {i : Int} {x : α} (h : readAt a i = .ok x) : x ∈ a := by
  unfold readAt at h
  split_ifs at h
  cases hx : a[i.toNat]? with
  | none => rw [hx] at h; cases h
  | some y => rw [hx] at h; cases h; exact List.getElem?_mem hx

theorem readAt_error {α : Type} {a : List α} {i : Int} {u : Undefined} (h : readAt a i = .error u) :
    u = .outOfBounds := by
  unfold readAt at h
  split_ifs at h
  · cases hx : a[i.toNat]? with
    | none => rw [hx] at h; cases h; rfl
    | some y => rw [hx] at h; cases h
  · cases h; rfl

theorem splitOn_cons (sep c : Char) (cs : List Char) :
    (c :: cs).splitOn sep =
      if c = sep then [] :: cs.splitOn sep else (cs.splitOn sep).modifyHead (c :: ·) := by
  simp [List.splitOn, List.splitOnP_cons]

theorem splitOn_ne_nil (sep : Char) (s : List Char) : s.splitOn sep ≠ [] :=
  List.splitOnP_ne_nil _ s

theorem splitOn_breakSep (sep : Char) (s : List Char) :
    s.splitOn sep = (breakSep sep s).1 :: ((breakSep sep s).2.map (·.splitOn sep)).getD [] := by
  induction s with
  | nil => rfl
  | cons c cs ih =>
    rw [splitOn_cons, breakSep]
    by_cases hc : c = sep
    · simp [hc]
    · rw [ih]; simp [hc]

theorem splitOn_tag {sep : Char} {tag : List Char} (rest : List Char) (h : sep ∉ tag) :
    (tag ++ sep :: rest).splitOn sep = tag :: rest.splitOn sep := by
  induction tag with
  | nil => simp [splitOn_cons]
  | cons c cs ih =>
    have hc : c ≠ sep := fun e => h (e ▸ List.mem_cons_self _ _)
    rw [List.cons_append, splitOn_cons, if_neg hc, ih fun e => h (List.mem_cons_of_mem _ e)]
    rfl

@[simp] theorem strsepN_none (sep : Char) (n : Nat) : strsepN sep n none = [] := by
  cases n <;> rfl

/-- `n` calls of `strsep` return the first `n` fields of `splitOn`, or all of them. -/
theorem strsepN_some (sep : Char) (n : Nat) (s : List Char) :
    strsepN sep n (some s) = (s.splitOn sep).take n := by
  induction n generalizing s with
  | zero => rfl
  | succ n ih =>
    rw [strsepN, splitOn_breakSep sep s, List.take_succ_cons]
    congr 1
    cases (breakSep sep s).2 <;> simp [ih]

theorem length_splitOn (sep : Char) (s : List Char) :
    (s.splitOn sep).length = s.count sep + 1 := by
  induction s with
  | nil => rfl
  | cons c cs ih =>
    rw [splitOn_cons, List.count_cons]
    by_cases hc : c = sep <;> simp [hc, ih]

theorem mem_of_mem_splitOn {sep c : Char} {s t : List Char} (ht : t ∈ s.splitOn sep)
    (hc : c ∈ t) : c ∈ s ∧ c ≠ sep := by
  induction s generalizing t with
  | nil => simp_all [List.splitOn]
  | cons x xs ih =>
    rw [splitOn_cons] at ht
    split_ifs at ht with hx
    · rcases List.mem_cons.mp ht with rfl | ht
      · simp at hc
      · exact (ih ht hc).imp (List.mem_cons_of_mem _) id
    · obtain ⟨h0, L, hs⟩ := List.exists_cons_of_ne_nil (splitOn_ne_nil sep xs)
      simp only [hs, List.modifyHead, List.mem_cons] at ht ih
      rcases ht with rfl | ht
      · rcases List.mem_cons.mp hc with rfl | hc
        · exact ⟨List.mem_cons_self _ _, hx⟩
        · exact (ih (Or.inl rfl) hc).imp (List.mem_cons_of_mem _) id
      · exact (ih (Or.inr ht) hc).imp (List.mem_cons_of_mem _) id

end BroCut
