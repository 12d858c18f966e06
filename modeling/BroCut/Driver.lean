import BroCut.Output

/-!
# The loop of `bro_cut`

`getline` cuts the stream into lines, each with its newline when it has one, and the loop
overwrites the last byte of each with NUL. The C string `line` is what remains up to the
first NUL, and `line + k` is the C string at offset `k` of the buffer. A line that does
not start with `#` is a data line; header lines update the run state by their prefix and
are then shown or not. A run state is reached by feeding lines one at a time (`exec`);
a fatal header error ends the run with status 1, undefined behaviour ends it with no
status at all.
-/

namespace BroCut

/-- The lines `getline` returns: every byte up to and including the next newline, and a
last segment without one when the stream does not end in a newline. -/
def getlines (acc : List Char) : List Char → List (List Char)
  | [] => if acc = [] then [] else [acc]
  | c :: cs => if c = '\n' then (acc ++ [c]) :: getlines [] cs else getlines (acc ++ [c]) cs

structure RunState where
  lp : LogParams
  headersSeen : Nat
  prevLineHdr : Bool
  prevFieldsLine : Bool
  deriving DecidableEq

def RunState.init : RunState := ⟨LogParams.init, 0, false, false⟩

/-- Why the loop stops early: `ret = 1; break`, or undefined behaviour. -/
inductive Break where
  | fatal (d : Diag)
  | undefined (u : Undefined)

/-- The kinds of line the loop tells apart, in the order it tests them. -/
inductive Kind where
  | data
  | separator
  | fields
  | types
  | other
  deriving DecidableEq

def classify (line : List Char) : Kind :=
  if line.head? ≠ some '#' then .data
  else if hasPrefix line "#separator " then .separator
  else if hasPrefix line "#fields" then .fields
  else if hasPrefix line "#types" then .types
  else .other

/-- The C string the loop works on: the line without its last byte, up to the first NUL. -/
def lineText (raw : List Char) : List Char := cstr raw.dropLast

def isHdr (line : List Char) : Bool := line.head? = some '#'

/-- Entering a header line: a new header block after a non-header line. -/
def enterHeader (st : RunState) : RunState :=
  if st.prevLineHdr then st
  else { st with prevLineHdr := true,
                 headersSeen := if st.headersSeen < 2 then st.headersSeen + 1 else st.headersSeen }

/-- `bopts.ofs[0] ? bopts.ofs[0] : ifs`. -/
def outSep (o : UserOpts) (ifs : Char) : Char := if o.ofs.headD nul ≠ nul then o.ofs.headD nul else ifs

/-- The separators a `#separator ` line installs: `ifs`, and `ofs` unless the user gave one. -/
def installSep (o : UserOpts) (lp : LogParams) (ifs : Char) : LogParams :=
  { lp with ifs := ifs, ofs := outSep o ifs }

@[simp] theorem installSep_idxRange (o : UserOpts) (lp : LogParams) (c : Char) :
    (installSep o lp c).idxRange = lp.idxRange := rfl

@[simp] theorem installSep_ifs (o : UserOpts) (lp : LogParams) (c : Char) :
    (installSep o lp c).ifs = c := rfl

@[simp] theorem installSep_ofs (o : UserOpts) (lp : LogParams) (c : Char) :
    (installSep o lp c).ofs = outSep o c := rfl

@[simp] theorem installSep_outIndexes (o : UserOpts) (lp : LogParams) (c : Char) :
    (installSep o lp c).outIndexes = lp.outIndexes := rfl

@[simp] theorem installSep_tmpAlloc (o : UserOpts) (lp : LogParams) (c : Char) :
    (installSep o lp c).tmpAlloc = lp.tmpAlloc := rfl

@[simp] theorem installSep_timeCols (o : UserOpts) (lp : LogParams) (c : Char) :
    (installSep o lp c).timeCols = lp.timeCols := rfl

def undef {α : Type} (x : Except Undefined α) : Except Break α := x.mapError .undefined

theorem undef_eq_ok {α : Type} {x : Except Undefined α} {a : α} (h : undef x = .ok a) : x = .ok a := by
  cases x with
  | error u => cases h
  | ok b => cases h; rfl

theorem undef_eq_error {α : Type} {x : Except Undefined α} {u : Undefined}
    (h : undef x = .error (.undefined u)) : x = .error u := by
  cases x with
  | error u' => cases h; rfl
  | ok a => cases h

/-- The header branch of the loop up to the display decision; `buf` is the line buffer. -/
def updateHeader (o : UserOpts) (buf : List Char) (st : RunState) : Kind → Except Break RunState
  | .separator => .ok { st with lp := installSep o st.lp (parsesep (cstr (buf.drop 11))) }
  | .fields => do
    let lp ← undef (findOutputIndexes (cstr (buf.drop 8)) st.lp o)
    return { st with prevFieldsLine := true, lp := lp }
  | .types =>
    if !st.prevFieldsLine then .error (.fatal .missingFields)
    else if o.timeconv = 0 then .ok { st with prevFieldsLine := false }
    else match findTimecol (cstr (buf.drop 7)) st.lp with
      | none => .error (.fatal .fewTypes)
      | some lp => .ok { st with prevFieldsLine := false, lp := lp }
  | _ => .ok st

variable {Tm : Type} (tl : TimeLib Tm)

/-- A shown header line: `#fields` and `#types` lines projected, the others as they are. -/
def emitHeader (o : UserOpts) (lp : LogParams) (line : List Char) : Except Undefined Emit :=
  if hasPrefix line "#fields" || hasPrefix line "#types" then outputIndexes tl true line lp o
  else .ok ⟨[line], []⟩

/-- A header line is shown when `showhdr >= headers_seen`. -/
def showHeader (o : UserOpts) (st : RunState) (line : List Char) : Except Undefined Emit :=
  if st.headersSeen ≤ o.showhdr then emitHeader tl o st.lp line else .ok ⟨[], []⟩

/-- One pass of the loop over a line `raw` as `getline` returned it. -/
def step (o : UserOpts) (st : RunState) (raw : List Char) : Except Break (RunState × Emit) :=
  let buf := raw.dropLast
  let line := cstr buf
  if st.prevFieldsLine && !hasPrefix line "#types" then .error (.fatal .missingTypes)
  else if classify line = .data then do
    let e ← undef (outputIndexes tl false line st.lp o)
    return ({ st with prevLineHdr := false }, e)
  else do
    let st ← updateHeader o buf (enterHeader st) (classify line)
    let e ← undef (showHeader tl o st line)
    return (st, e)

/-- A run so far: still in the loop with its output, ended by `break` with status 1, or
undefined. -/
inductive Run where
  | running (st : RunState) (out : List (List Char)) (err : List Diag)
  | failed (out : List (List Char)) (err : List Diag)
  | undefined (u : Undefined)
  deriving DecidableEq

def Run.start : Run := .running RunState.init [] []

def Run.feed (o : UserOpts) : Run → List Char → Run
  | .running st out err, raw =>
    match step tl o st raw with
    | .ok (st', e) => .running st' (out ++ e.out) (err ++ e.err)
    | .error (.fatal d) => .failed out (err ++ [d])
    | .error (.undefined u) => .undefined u
  | r, _ => r

def exec (o : UserOpts) (r : Run) (lines : List (List Char)) : Run :=
  lines.foldl (Run.feed tl o) r

def broCut (o : UserOpts) (input : List Char) : Run :=
  exec tl o .start (getlines [] input)

/-- The value `bro_cut` returns; none when the run is undefined. -/
def Run.status : Run → Option Nat
  | .running .. => some 0
  | .failed .. => some 1
  | .undefined _ => none

def render (out : List (List Char)) : List Char := out.flatMap (· ++ ['\n'])

def Run.stdout : Run → List Char
  | .running _ out _ | .failed out _ => render out
  | .undefined _ => []

def Run.stderr : Run → String
  | .running _ _ err | .failed _ err => String.join (err.map Diag.text)
  | .undefined _ => ""

@[simp] theorem exec_nil (o : UserOpts) (r : Run) : exec tl o r [] = r := rfl

@[simp] theorem exec_cons (o : UserOpts) (r : Run) (l : List Char) (ls : List (List Char)) :
    exec tl o r (l :: ls) = exec tl o (r.feed tl o l) ls := rfl

theorem exec_append (o : UserOpts) (r : Run) (ls ls' : List (List Char)) :
    exec tl o r (ls ++ ls') = exec tl o (exec tl o r ls) ls' := by
  simp [exec, List.foldl_append]

@[simp] theorem feed_failed (o : UserOpts) (out : List (List Char)) (err : List Diag)
    (l : List Char) : (Run.failed out err).feed tl o l = .failed out err := rfl

@[simp] theorem feed_undefined (o : UserOpts) (u : Undefined) (l : List Char) :
    (Run.undefined u).feed tl o l = .undefined u := rfl

@[simp] theorem exec_failed (o : UserOpts) (out : List (List Char)) (err : List Diag)
    (ls : List (List Char)) : exec tl o (.failed out err) ls = .failed out err := by
  induction ls <;> simp_all

@[simp] theorem exec_undefined (o : UserOpts) (u : Undefined) (ls : List (List Char)) :
    exec tl o (.undefined u) ls = .undefined u := by
  induction ls <;> simp_all

theorem exec_snoc_running {o : UserOpts} {r : Run} {ls : List (List Char)} {raw : List Char}
    {st' : RunState} {out' : List (List Char)} {err' : List Diag}
    (h : exec tl o r (ls ++ [raw]) = .running st' out' err') :
    ∃ st out err e, exec tl o r ls = .running st out err ∧ step tl o st raw = .ok (st', e) ∧
      out' = out ++ e.out ∧ err' = err ++ e.err := by
  rw [exec_append] at h
  cases hr : exec tl o r ls with
  | failed => simp [hr] at h
  | undefined => simp [hr] at h
  | running st out err =>
    simp only [hr, exec_cons, exec_nil, Run.feed] at h
    split at h <;> cases h
    exact ⟨st, out, err, _, rfl, ‹_›, rfl, rfl⟩

theorem exec_induction (o : UserOpts) (P : List (List Char) → RunState → Prop)
    (hinit : P [] RunState.init)
    (hstep : ∀ ls st out err raw st' e, exec tl o .start ls = .running st out err → P ls st →
      step tl o st raw = .ok (st', e) → P (ls ++ [raw]) st')
    {ls : List (List Char)} {st : RunState} {out : List (List Char)} {err : List Diag}
    (h : exec tl o .start ls = .running st out err) : P ls st := by
  induction ls using List.reverseRecOn generalizing st out err with
  | nil => cases h; exact hinit
  | append_singleton ls raw ih =>
    obtain ⟨st₀, out₀, err₀, e, h₀, hs, -, -⟩ := exec_snoc_running tl h
    exact hstep ls st₀ out₀ err₀ raw st e h₀ (ih h₀) hs

theorem classify_eq_data {line : List Char} : classify line = .data ↔ isHdr line = false := by
  unfold classify isHdr
  split_ifs <;> simp_all

theorem step_missingTypes {o : UserOpts} {st : RunState} {raw : List Char}
    (h : st.prevFieldsLine ∧ hasPrefix (lineText raw) "#types" = false) :
    step tl o st raw = .error (.fatal .missingTypes) := by
  unfold step
  rw [if_pos (by simpa [lineText] using h)]

theorem step_data {o : UserOpts} {st : RunState} {raw : List Char}
    (hf : ¬(st.prevFieldsLine ∧ hasPrefix (lineText raw) "#types" = false))
    (hd : isHdr (lineText raw) = false) :
    step tl o st raw = (undef (outputIndexes tl false (lineText raw) st.lp o)).bind
      fun e => .ok ({ st with prevLineHdr := false }, e) := by
  have hd' := classify_eq_data.mpr hd
  simp only [lineText] at hf hd'
  simp only [step, lineText, hd', if_true]
  rw [if_neg (by simpa using hf)]
  rfl

theorem step_header {o : UserOpts} {st : RunState} {raw : List Char}
    (hf : ¬(st.prevFieldsLine ∧ hasPrefix (lineText raw) "#types" = false))
    (hd : isHdr (lineText raw) = true) :
    step tl o st raw = (updateHeader o raw.dropLast (enterHeader st) (classify (lineText raw))).bind
      fun st' => (undef (showHeader tl o st' (lineText raw))).bind fun e => .ok (st', e) := by
  have hd' : classify (lineText raw) ≠ .data := fun h => by simp [classify_eq_data.mp h] at hd
  simp only [lineText] at hf hd'
  simp only [step, lineText, hd', if_false]
  rw [if_neg (by simpa using hf)]
  rfl

@[simp] theorem enterHeader_lp (st : RunState) : (enterHeader st).lp = st.lp := by
  unfold enterHeader; split <;> rfl

@[simp] theorem enterHeader_prevFieldsLine (st : RunState) :
    (enterHeader st).prevFieldsLine = st.prevFieldsLine := by
  unfold enterHeader; split <;> rfl

theorem step_ok {o : UserOpts} {st st' : RunState} {raw : List Char} {e : Emit}
    (h : step tl o st raw = .ok (st', e)) :
    (st.prevFieldsLine → hasPrefix (lineText raw) "#types") ∧
    (isHdr (lineText raw) = false → st' = { st with prevLineHdr := false } ∧
      undef (outputIndexes tl false (lineText raw) st.lp o) = .ok e) ∧
    (isHdr (lineText raw) = true →
      updateHeader o raw.dropLast (enterHeader st) (classify (lineText raw)) = .ok st' ∧
      undef (showHeader tl o st' (lineText raw)) = .ok e) := by
  by_cases hf : st.prevFieldsLine ∧ hasPrefix (lineText raw) "#types" = false
  · rw [step_missingTypes tl hf] at h; cases h
  refine ⟨fun hp => by simpa [hp] using hf, fun hd => ?_, fun hd => ?_⟩
  · rw [step_data tl hf hd] at h
    obtain ⟨e', he, hok⟩ := except_bind_eq_ok h
    cases hok
    exact ⟨rfl, he⟩
  · rw [step_header tl hf hd] at h
    obtain ⟨st'', hu, hs⟩ := except_bind_eq_ok h
    obtain ⟨e', he, hok⟩ := except_bind_eq_ok hs
    cases hok
    exact ⟨hu, he⟩

theorem updateHeader_fields {o : UserOpts} {buf : List Char} {st st' : RunState}
    (h : updateHeader o buf st .fields = .ok st') :
    ∃ lp, findOutputIndexes (cstr (buf.drop 8)) st.lp o = .ok lp ∧
      st' = { st with prevFieldsLine := true, lp := lp } := by
  simp only [updateHeader] at h
  cases hf : findOutputIndexes (cstr (buf.drop 8)) st.lp o <;>
    simp [hf, undef, Except.mapError] at h
  exact ⟨_, rfl, h.symm⟩

theorem updateHeader_types {o : UserOpts} {buf : List Char} {st st' : RunState}
    (h : updateHeader o buf st .types = .ok st') :
    st.prevFieldsLine = true ∧
      (o.timeconv = 0 ∧ st' = { st with prevFieldsLine := false } ∨
        o.timeconv ≠ 0 ∧ ∃ lp, findTimecol (cstr (buf.drop 7)) st.lp = some lp ∧
          st' = { st with prevFieldsLine := false, lp := lp }) := by
  simp only [updateHeader] at h
  split_ifs at h with h1 h2
  · cases h; exact ⟨by simpa using h1, .inl ⟨h2, rfl⟩⟩
  · cases hf : findTimecol (cstr (buf.drop 7)) st.lp <;> rw [hf] at h <;> cases h
    exact ⟨by simpa using h1, .inr ⟨h2, _, rfl, rfl⟩⟩

theorem classify_of_types {line : List Char} (h : hasPrefix line "#types") :
    classify line = .types := by
  obtain ⟨rest, rfl⟩ := (hasPrefix_iff line "#types").mp h
  simp [classify, hasPrefix]

theorem classify_of_fields {line : List Char} (h : hasPrefix line "#fields") :
    classify line = .fields := by
  obtain ⟨rest, rfl⟩ := (hasPrefix_iff line "#fields").mp h
  simp [classify, hasPrefix]

/-- What a completed pass does to the parameters and to the `#fields` flag, by the kind of
its line; only a `#types` line may follow a `#fields` line. -/
def Moves (o : UserOpts) (st : RunState) (raw : List Char) (st' : RunState) : Prop :=
  match classify (lineText raw) with
  | .data | .other => st.prevFieldsLine = false ∧ st'.prevFieldsLine = false ∧ st'.lp = st.lp
  | .separator => st.prevFieldsLine = false ∧ st'.prevFieldsLine = false ∧
    st'.lp = installSep o st.lp (parsesep (cstr (raw.dropLast.drop 11)))
  | .fields => st.prevFieldsLine = false ∧ st'.prevFieldsLine = true ∧
    findOutputIndexes (cstr (raw.dropLast.drop 8)) st.lp o = .ok st'.lp
  | .types => st.prevFieldsLine = true ∧ st'.prevFieldsLine = false ∧
    if o.timeconv = 0 then st'.lp = st.lp else findTimecol (cstr (raw.dropLast.drop 7)) st.lp = some st'.lp

theorem prevFieldsLine_eq_false {st : RunState} {raw : List Char}
    (hpre : st.prevFieldsLine → hasPrefix (lineText raw) "#types")
    (hk : classify (lineText raw) ≠ .types) : st.prevFieldsLine = false := by
  cases hp : st.prevFieldsLine
  · rfl
  · exact absurd (classify_of_types (hpre hp)) hk

theorem updateHeader_moves {o : UserOpts} {st st' : RunState} {raw : List Char}
    (hpre : st.prevFieldsLine → hasPrefix (lineText raw) "#types")
    (hd : classify (lineText raw) ≠ .data)
    (hu : updateHeader o raw.dropLast (enterHeader st) (classify (lineText raw)) = .ok st') :
    Moves o st raw st' := by
  have hnf : classify (lineText raw) ≠ .types → st.prevFieldsLine = false := prevFieldsLine_eq_false hpre
  cases hk : classify (lineText raw) <;> rw [hk] at hu <;> simp only [Moves, hk]
  case data => exact absurd hk hd
  case types =>
    obtain ⟨hp, ⟨h0, rfl⟩ | ⟨h0, lp, hlp, rfl⟩⟩ := updateHeader_types hu
    · exact ⟨by simpa using hp, rfl, by simp [h0]⟩
    · exact ⟨by simpa using hp, rfl, by simpa [h0] using hlp⟩
  case fields =>
    obtain ⟨lp, hlp, rfl⟩ := updateHeader_fields hu
    exact ⟨hnf (by simp [hk]), rfl, by simpa using hlp⟩
  case separator =>
    cases hu
    exact ⟨hnf (by simp [hk]), by simpa using hnf (by simp [hk]), by simp⟩
  case other =>
    cases hu
    exact ⟨hnf (by simp [hk]), by simpa using hnf (by simp [hk]), by simp⟩

theorem step_moves {o : UserOpts} {st st' : RunState} {raw : List Char} {e : Emit}
    (h : step tl o st raw = .ok (st', e)) : Moves o st raw st' := by
  obtain ⟨hpre, hdata, hhdr⟩ := step_ok tl h
  cases hd : isHdr (lineText raw)
  · have hk := classify_eq_data.mpr hd
    obtain ⟨rfl, -⟩ := hdata hd
    have hp := prevFieldsLine_eq_false hpre (by simp [hk])
    simp only [Moves, hk]
    exact ⟨hp, hp, trivial⟩
  · exact updateHeader_moves hpre (fun hk => by simp [classify_eq_data.mp hk] at hd) (hhdr hd).1

theorem updateHeader_counters {o : UserOpts} {buf : List Char} {st st' : RunState} {k : Kind}
    (h : updateHeader o buf st k = .ok st') :
    st'.headersSeen = st.headersSeen ∧ st'.prevLineHdr = st.prevLineHdr := by
  cases k <;> simp only [updateHeader] at h
  case fields =>
    cases hf : findOutputIndexes (cstr (buf.drop 8)) st.lp o <;>
      simp [hf, undef, Except.mapError] at h
    cases h; exact ⟨rfl, rfl⟩
  case types =>
    split_ifs at h
    · cases h; exact ⟨rfl, rfl⟩
    · cases hf : findTimecol (cstr (buf.drop 7)) st.lp <;> rw [hf] at h <;> cases h
      exact ⟨rfl, rfl⟩
  all_goals cases h; exact ⟨rfl, rfl⟩

theorem step_counters {o : UserOpts} {st st' : RunState} {raw : List Char} {e : Emit}
    (h : step tl o st raw = .ok (st', e)) :
    st'.prevLineHdr = isHdr (lineText raw) ∧
    st'.headersSeen = (if isHdr (lineText raw) && !st.prevLineHdr then
      (if st.headersSeen < 2 then st.headersSeen + 1 else st.headersSeen) else st.headersSeen) ∧
    (isHdr (lineText raw) → undef (showHeader tl o st' (lineText raw)) = .ok e) := by
  by_cases hf : st.prevFieldsLine ∧ hasPrefix (lineText raw) "#types" = false
  · rw [step_missingTypes tl hf] at h; cases h
  cases hd : isHdr (lineText raw)
  · rw [step_data tl hf hd] at h
    obtain ⟨e', -, he⟩ := except_bind_eq_ok h
    cases he
    exact ⟨rfl, rfl, by simp⟩
  · rw [step_header tl hf hd] at h
    obtain ⟨st'', hu, hs⟩ := except_bind_eq_ok h
    obtain ⟨e', he, hok⟩ := except_bind_eq_ok hs
    cases hok
    obtain ⟨h1, h2⟩ := updateHeader_counters hu
    refine ⟨by rw [h2]; unfold enterHeader; split_ifs <;> simp_all, ?_, fun _ => he⟩
    rw [h1]; unfold enterHeader; cases st.prevLineHdr <;> simp

/-- A log under the separator `,`: its header block and one data line. -/
def sampleLines : List (List Char) :=
  ["#separator \\x2c\n".toList, "#fields,ts,id\n".toList, "#types,time,count\n".toList, "1,7\n".toList]

end BroCut
