import BroCut.Driver

/-!
# `main`: the command line

`getopt` with the option string `cCnF:duD:U:h`, as the C library has it when
`POSIXLY_CORRECT` is unset. Every element after the program name that starts with `-` and
has a byte after it is a cluster of options. An option that takes an argument takes the rest
of its cluster, or else the next element whatever it is. `--` ends the options, and the other
elements are operands, which `getopt` moves after the options, keeping their order.

`main` applies the options in the order `getopt` returns them and takes the operands as the
columns. `-h`, an unknown option or a missing argument call `usage`, which writes the help
text and exits with 1. A `-F` argument that is not one byte ends the program with a message.
The option sets `main` builds are exactly the valid ones (`main_options_round_trip`).
-/

namespace BroCut

/-- A result of `getopt`: an option, an option with its argument, or `?`. -/
inductive Getopt where
  | opt (c : Char)
  | optArg (c : Char) (arg : List Char)
  | unknown
  deriving DecidableEq

def takesArg (c : Char) : Bool := c = 'F' || c = 'D' || c = 'U'

def isFlag (c : Char) : Bool := c = 'c' || c = 'C' || c = 'n' || c = 'd' || c = 'u' || c = 'h'

/-- The options of a cluster, the bytes after its `-`: the results in order, and the option
still waiting for its argument when the cluster ends with one. -/
def cluster : List Char → List Getopt × Option Char
  | [] => ([], none)
  | c :: cs =>
    if takesArg c then if cs = [] then ([], some c) else ([.optArg c cs], none)
    else ((if isFlag c then Getopt.opt c else .unknown) :: (cluster cs).1, (cluster cs).2)

/-- `getopt` over the elements after the program name, `p` being an option still waiting for
its argument: the results in order, and the operands. -/
def getopt : Option Char → List (List Char) → List Getopt × List (List Char)
  | some _, [] => ([.unknown], [])
  | none, [] => ([], [])
  | some c, a :: as => (.optArg c a :: (getopt none as).1, (getopt none as).2)
  | none, a :: as =>
    if a = "--".toList then ([], as)
    else match a with
      | '-' :: c :: cs =>
        ((cluster (c :: cs)).1 ++ (getopt (cluster (c :: cs)).2 as).1,
          (getopt (cluster (c :: cs)).2 as).2)
      | _ => ((getopt none as).1, a :: (getopt none as).2)

/-- Why `main` stops before reading its input, with status 1: a `-F` argument that is not one
byte, or `usage`. -/
inductive MainExit where
  | badOfs
  | usage
  deriving DecidableEq

/-- One pass of the `switch` of `main` over what `getopt` returned. -/
def applyOpt (o : UserOpts) : Getopt → Except MainExit UserOpts
  | .opt c =>
    if c = 'c' then .ok { o with showhdr := 1 }
    else if c = 'C' then .ok { o with showhdr := 2 }
    else if c = 'n' then .ok { o with negate := true }
    else if c = 'd' then .ok { o with timeconv := 1 }
    else if c = 'u' then .ok { o with timeconv := 2 }
    else .error .usage
  | .optArg c a =>
    if c = 'F' then (if (cstr a).length ≠ 1 then .error .badOfs else .ok { o with ofs := a })
    else if c = 'D' then .ok { o with timeconv := 1, timefmt := a }
    else if c = 'U' then .ok { o with timeconv := 2, timefmt := a }
    else .error .usage
  | .unknown => .error .usage

def defaultTimefmt : List Char := "%Y-%m-%dT%H:%M:%S%z".toList

/-- The options `main` starts from, `env` being `BRO_CUT_TIMEFMT`. -/
def initialOpts (env : Option (List Char)) : UserOpts := ⟨0, false, 0, [], [], env.getD defaultTimefmt⟩

/-- The options `main` hands to `bro_cut`, the operands being the columns. -/
def mainOpts (env : Option (List Char)) (args : List (List Char)) : Except MainExit UserOpts :=
  ((getopt none args).1.foldlM applyOpt (initialOpts env)).map
    fun o => { o with columns := (getopt none args).2 }

/-- What `usage` writes to standard output: each string of its `puts` calls and a newline. -/
def usageText : List Char :=
  ["\nbro-cut [options] [<columns>]\n",
    "Extracts the given columns from an ASCII Bro log on standard input.",
    "If no columns are given, all are selected. By default, bro-cut does",
    "not include format header blocks into the output.",
    "\nExample: cat conn.log | bro-cut -d ts id.orig_h id.orig_p",
    "\n    -c       Include the first format header block into the output.",
    "    -C       Include all format header blocks into the output.",
    "    -d       Convert time values into human-readable format.",
    "    -D <fmt> Like -d, but specify format for time (see strftime(3) for syntax).",
    "    -F <ofs> Sets a different output field separator.",
    "    -n       Print all fields *except* those specified.",
    "    -u       Like -d, but print timestamps in UTC instead of local time.",
    "    -U <fmt> Like -D, but print timestamps in UTC instead of local time.\n",
    "For time conversion option -d or -u, the format string can be specified by",
    "setting an environment variable BRO_CUT_TIMEFMT.\n"].flatMap fun s => s.toList ++ ['\n']

/-- What the program leaves: standard output, standard error, and the exit status (none when
the run is undefined). The message `getopt` itself writes for `?` is left out. -/
structure Outcome where
  stdout : List Char
  stderr : String
  status : Option Nat

variable {Tm : Type} (tl : TimeLib Tm)

/-- The program on the command line `args`, with `BRO_CUT_TIMEFMT` set to `env` or unset,
reading `input`. -/
def main (env : Option (List Char)) (args : List (List Char)) (input : List Char) : Outcome :=
  match mainOpts env args with
  | .error .badOfs => ⟨[], "bro-cut: field separator must be a single character\n", some 1⟩
  | .error .usage => ⟨usageText, "", some 1⟩
  | .ok o => ⟨(broCut tl o input).stdout, (broCut tl o input).stderr, (broCut tl o input).status⟩

/-- The option sets `main` can build: a header mode, a time mode and a `-F` byte it accepts,
the format of `BRO_CUT_TIMEFMT` (or the default) while no time conversion is asked for, and
C strings throughout. -/
structure UserOpts.Valid (env : Option (List Char)) (o : UserOpts) : Prop where
  showhdr_le : o.showhdr ≤ 2
  timeconv_le : o.timeconv ≤ 2
  ofs : o.ofs = [] ∨ ∃ c, c ≠ nul ∧ o.ofs = [c]
  timefmt : o.timeconv = 0 → o.timefmt = env.getD defaultTimefmt
  timefmt_cstr : nul ∉ o.timefmt
  columns : ∀ c ∈ o.columns, nul ∉ c

def showOpts : Nat → List Getopt
  | 1 => [.opt 'c']
  | 2 => [.opt 'C']
  | _ => []

def timeOpts (fmt : List Char) : Nat → List Getopt
  | 1 => [.optArg 'D' fmt]
  | 2 => [.optArg 'U' fmt]
  | _ => []

def optsOf (o : UserOpts) : List Getopt :=
  showOpts o.showhdr ++ (if o.negate then [.opt 'n'] else []) ++
    (if o.ofs = [] then [] else [.optArg 'F' o.ofs]) ++ timeOpts o.timefmt o.timeconv

def argsOf : Getopt → List (List Char)
  | .opt c => [['-', c]]
  | .optArg c a => [['-', c], a]
  | .unknown => []

/-- A command line that asks for `o`: its options, then `--` and the columns. -/
def toArgs (o : UserOpts) : List (List Char) := (optsOf o).flatMap argsOf ++ "--".toList :: o.columns

/-- An option `getopt` reads back from its spelling. -/
def Spelled : Getopt → Prop
  | .opt c => isFlag c ∧ takesArg c = false
  | .optArg c _ => takesArg c
  | .unknown => False

theorem getopt_dash {c : Char} {cs : List Char} (as : List (List Char)) (hc : c ≠ '-') :
    getopt none (('-' :: c :: cs) :: as) =
      ((cluster (c :: cs)).1 ++ (getopt (cluster (c :: cs)).2 as).1, (getopt (cluster (c :: cs)).2 as).2) := by
  rw [getopt, if_neg (by simp [hc])]

theorem getopt_dashdash (as : List (List Char)) : getopt none ("--".toList :: as) = ([], as) := by
  simp [getopt]

theorem getopt_argsOf {rs : List Getopt} (hrs : ∀ r ∈ rs, Spelled r) (rest : List (List Char)) :
    getopt none (rs.flatMap argsOf ++ rest) = (rs ++ (getopt none rest).1, (getopt none rest).2) := by
  induction rs with
  | nil => rfl
  | cons r rs ih =>
    have ih := ih fun r hr => hrs r (List.mem_cons_of_mem _ hr)
    have hr := hrs r (List.mem_cons_self _ _)
    rw [List.flatMap_cons, List.append_assoc]
    cases r with
    | opt c =>
      have hc : c ≠ '-' := by rintro rfl; simp [Spelled, isFlag] at hr
      have hcl : cluster [c] = ([.opt c], none) := by simp [cluster, hr.1, hr.2]
      rw [argsOf, List.singleton_append, getopt_dash _ hc, hcl, ih]
      rfl
    | optArg c a =>
      have hc : c ≠ '-' := by rintro rfl; simp [Spelled, takesArg] at hr
      have hcl : cluster [c] = ([], some c) := by simp [cluster, show takesArg c = true from hr]
      rw [argsOf, List.cons_append, List.singleton_append, getopt_dash _ hc, hcl, getopt, ih]
      rfl
    | unknown => exact absurd hr id

theorem spelled_optsOf (o : UserOpts) : ∀ r ∈ optsOf o, Spelled r := by
  have hc : Spelled (.opt 'c') := show isFlag 'c' = true ∧ takesArg 'c' = false by decide
  have hC : Spelled (.opt 'C') := show isFlag 'C' = true ∧ takesArg 'C' = false by decide
  have hn : Spelled (.opt 'n') := show isFlag 'n' = true ∧ takesArg 'n' = false by decide
  have hF : ∀ a, Spelled (.optArg 'F' a) := fun _ => show takesArg 'F' = true by decide
  have hD : ∀ a, Spelled (.optArg 'D' a) := fun _ => show takesArg 'D' = true by decide
  have hU : ∀ a, Spelled (.optArg 'U' a) := fun _ => show takesArg 'U' = true by decide
  simp only [optsOf, showOpts, timeOpts, List.mem_append]
  rintro r (((hr | hr) | hr) | hr) <;> split at hr <;> simp only [List.mem_singleton, List.not_mem_nil] at hr
  all_goals subst hr; first | assumption | exact hF _ | exact hD _ | exact hU _

theorem applyOpt_ofs (o : UserOpts) {a : List Char} (h : (cstr a).length = 1) :
    applyOpt o (.optArg 'F' a) = .ok { o with ofs := a } := by
  simp only [applyOpt, if_true, h, ne_eq, not_true_eq_false, if_false]

theorem foldlM_optsOf {env : Option (List Char)} {o : UserOpts} (hv : o.Valid env) :
    (optsOf o).foldlM applyOpt (initialOpts env) = .ok { o with columns := [] } := by
  obtain ⟨hs, ht, hofs, hfmt, -, -⟩ := hv
  have h1 : (showOpts o.showhdr).foldlM applyOpt (initialOpts env) =
      .ok { initialOpts env with showhdr := o.showhdr } := by
    rcases (by omega : o.showhdr = 0 ∨ o.showhdr = 1 ∨ o.showhdr = 2) with h | h | h <;> rw [h] <;> rfl
  have h2 : ∀ x : UserOpts, x.negate = false →
      (if o.negate then [Getopt.opt 'n'] else []).foldlM applyOpt x = .ok { x with negate := o.negate } := by
    rintro ⟨_, _, _, _, _, _⟩ rfl
    cases o.negate <;> rfl
  have h3 : ∀ x : UserOpts, x.ofs = [] →
      (if o.ofs = [] then [] else [Getopt.optArg 'F' o.ofs]).foldlM applyOpt x = .ok { x with ofs := o.ofs } := by
    rintro ⟨_, _, _, _, _, _⟩ rfl
    rcases hofs with h | ⟨c, hc, h⟩ <;> rw [h]
    · rfl
    · rw [if_neg (List.cons_ne_nil _ _), List.foldlM_cons, applyOpt_ofs _ (by simp [cstr, hc])]
      rfl
  have h4 : ∀ x : UserOpts, x.timeconv = 0 → x.timefmt = env.getD defaultTimefmt →
      (timeOpts o.timefmt o.timeconv).foldlM applyOpt x =
        .ok { x with timeconv := o.timeconv, timefmt := o.timefmt } := by
    rintro ⟨_, _, _, _, _, _⟩ rfl rfl
    rcases (by omega : o.timeconv = 0 ∨ o.timeconv = 1 ∨ o.timeconv = 2) with h | h | h
    · rw [h, ← hfmt h]; rfl
    all_goals rw [h]; rfl
  rw [optsOf, List.foldlM_append, List.foldlM_append, List.foldlM_append, h1, except_ok_bind, h2 _ rfl,
    except_ok_bind, h3 _ rfl, except_ok_bind, h4 _ rfl rfl]
  rfl

theorem cluster_args_cstr {cs : List Char} (h : nul ∉ cs) :
    ∀ c a, Getopt.optArg c a ∈ (cluster cs).1 → nul ∉ a := by
  induction cs with
  | nil => simp [cluster]
  | cons c cs ih =>
    have ih := ih fun hm => h (List.mem_cons_of_mem _ hm)
    intro c' a ha
    unfold cluster at ha
    split_ifs at ha
    · simp at ha
    · obtain ⟨-, rfl⟩ := by simpa using ha
      exact fun hm => h (List.mem_cons_of_mem _ hm)
    all_goals exact ih c' a (by simpa using ha)

theorem getopt_cstr {args : List (List Char)} (h : ∀ a ∈ args, nul ∉ a) (p : Option Char) :
    (∀ c a, Getopt.optArg c a ∈ (getopt p args).1 → nul ∉ a) ∧ ∀ a ∈ (getopt p args).2, nul ∉ a := by
  induction args generalizing p with
  | nil => cases p <;> simp [getopt]
  | cons a as ih =>
    have ih := ih fun x hx => h x (List.mem_cons_of_mem _ hx)
    have ha := h a (List.mem_cons_self _ _)
    cases p with
    | some c =>
      refine ⟨fun c' a' hm => ?_, (ih none).2⟩
      rcases List.mem_cons.mp hm with hm | hm
      · cases hm; exact ha
      · exact (ih none).1 c' a' hm
    | none =>
      unfold getopt
      split_ifs
      · exact ⟨by simp, fun x hx => h x (List.mem_cons_of_mem _ hx)⟩
      split
      · rename_i c cs
        refine ⟨fun c' a' hm => ?_, (ih _).2⟩
        rcases List.mem_append.mp hm with hm | hm
        · exact cluster_args_cstr (fun hn => ha (List.mem_cons_of_mem _ hn)) c' a' hm
        · exact (ih _).1 c' a' hm
      · refine ⟨(ih none).1, fun x hx => ?_⟩
        rcases List.mem_cons.mp hx with rfl | hx
        · exact ha
        · exact (ih none).2 x hx

theorem ofs_of_strlen {a : List Char} (ha : nul ∉ a) (hlen : (cstr a).length = 1) :
    ∃ c, c ≠ nul ∧ a = [c] := by
  rw [cstr_of_nul_not_mem ha] at hlen
  obtain ⟨c, rfl⟩ := List.length_eq_one.mp hlen
  exact ⟨c, fun hc => ha (by simp [hc]), rfl⟩

theorem applyOpt_valid {env : Option (List Char)} {o o' : UserOpts} {r : Getopt} (hv : o.Valid env)
    (hr : ∀ c a, r = .optArg c a → nul ∉ a) (h : applyOpt o r = .ok o') : o'.Valid env := by
  obtain ⟨hs, ht, hofs, hfmt, hcs, hcol⟩ := hv
  cases r with
  | opt c =>
    by_cases hc : c = 'c'
    · subst hc; cases h; exact ⟨(by decide : 1 ≤ 2), ht, hofs, hfmt, hcs, hcol⟩
    by_cases hC : c = 'C'
    · subst hC; cases h; exact ⟨(by decide : 2 ≤ 2), ht, hofs, hfmt, hcs, hcol⟩
    by_cases hn : c = 'n'
    · subst hn; cases h; exact ⟨hs, ht, hofs, hfmt, hcs, hcol⟩
    by_cases hd : c = 'd'
    · subst hd; cases h; exact ⟨hs, (by decide : 1 ≤ 2), hofs, fun h => absurd h (Nat.succ_ne_zero _), hcs, hcol⟩
    by_cases hu : c = 'u'
    · subst hu; cases h; exact ⟨hs, (by decide : 2 ≤ 2), hofs, fun h => absurd h (Nat.succ_ne_zero _), hcs, hcol⟩
    rw [applyOpt, if_neg hc, if_neg hC, if_neg hn, if_neg hd, if_neg hu] at h
    cases h
  | optArg c a =>
    by_cases hF : c = 'F'
    · subst hF
      by_cases hlen : (cstr a).length = 1
      · rw [applyOpt_ofs o hlen] at h
        cases h
        exact ⟨hs, ht, .inr (ofs_of_strlen (hr _ _ rfl) hlen), hfmt, hcs, hcol⟩
      · rw [applyOpt, if_pos rfl, if_pos hlen] at h
        cases h
    by_cases hD : c = 'D'
    · subst hD; cases h
      exact ⟨hs, (by decide : 1 ≤ 2), hofs, fun h => absurd h (Nat.succ_ne_zero _), hr _ _ rfl, hcol⟩
    by_cases hU : c = 'U'
    · subst hU; cases h
      exact ⟨hs, (by decide : 2 ≤ 2), hofs, fun h => absurd h (Nat.succ_ne_zero _), hr _ _ rfl, hcol⟩
    rw [applyOpt, if_neg hF, if_neg hD, if_neg hU] at h
    cases h
  | unknown => cases h

theorem foldlM_valid {env : Option (List Char)} {rs : List Getopt}
    (hrs : ∀ c a, Getopt.optArg c a ∈ rs → nul ∉ a) {o o' : UserOpts} (hv : o.Valid env)
    (h : rs.foldlM applyOpt o = .ok o') : o'.Valid env := by
  induction rs generalizing o with
  | nil => cases h; exact hv
  | cons r rs ih =>
    rw [List.foldlM_cons] at h
    cases hr : applyOpt o r with
    | error e => rw [hr] at h; cases h
    | ok o₁ =>
      rw [hr] at h
      exact ih (fun c a hm => hrs c a (List.mem_cons_of_mem _ hm))
        (applyOpt_valid hv (fun c a hra => hrs c a (hra ▸ List.mem_cons_self _ _)) hr) h

/-- The option sets `main` builds are exactly the valid ones: from a command line and a
`BRO_CUT_TIMEFMT` without NUL bytes it builds a valid option set or stops, and it builds every
valid option set back from the command line that spells it out. -/
theorem main_options_round_trip (env : Option (List Char)) :
    ((∀ s ∈ env, nul ∉ s) → ∀ args o, (∀ a ∈ args, nul ∉ a) → mainOpts env args = .ok o → o.Valid env) ∧
    ∀ o, o.Valid env → mainOpts env (toArgs o) = .ok o := by
  refine ⟨fun henv args o hargs h => ?_, fun o hv => ?_⟩
  · have hinit : (initialOpts env).Valid env := by
      refine ⟨by simp [initialOpts], by simp [initialOpts], .inl rfl, fun _ => rfl, ?_, by simp [initialOpts]⟩
      cases env with
      | none => decide
      | some s => exact henv s rfl
    obtain ⟨hopt, hops⟩ := getopt_cstr hargs none
    unfold mainOpts at h
    cases hf : (getopt none args).1.foldlM applyOpt (initialOpts env) with
    | error e => rw [hf] at h; cases h
    | ok o₁ =>
      rw [hf] at h
      cases h
      obtain ⟨hs, ht, hofs, hfmt, hcs, -⟩ := foldlM_valid hopt hinit hf
      exact ⟨hs, ht, hofs, hfmt, hcs, hops⟩
  · have hg : getopt none (toArgs o) = (optsOf o, o.columns) := by
      rw [toArgs, getopt_argsOf (spelled_optsOf o), getopt_dashdash, List.append_nil]
    rw [mainOpts, hg]
    simp only [foldlM_optsOf hv]
    rfl

theorem main_options_round_trip_sample :
    UserOpts.Valid none ⟨2, true, 0, ["ts".toList], [','], defaultTimefmt⟩ ∧
      mainOpts none (toArgs ⟨0, false, 2, ["-x".toList], [], "%s".toList⟩) =
        .ok ⟨0, false, 2, ["-x".toList], [], "%s".toList⟩ :=
  ⟨(main_options_round_trip none).1 (by simp) ["-CnF,".toList, "ts".toList] _ (by decide) rfl,
    (main_options_round_trip none).2 _ ⟨by decide, by decide, .inl rfl, by simp, by decide, by decide⟩⟩

def showOf : Getopt → Option Nat
  | .opt c => if c = 'c' then some 1 else if c = 'C' then some 2 else none
  | .optArg _ _ | .unknown => none

def convOf : Getopt → Option Nat
  | .opt c => if c = 'd' then some 1 else if c = 'u' then some 2 else none
  | .optArg c _ => if c = 'D' then some 1 else if c = 'U' then some 2 else none
  | .unknown => none

def fmtOf : Getopt → Option (List Char)
  | .optArg c a => if c = 'D' ∨ c = 'U' then some a else none
  | .opt _ | .unknown => none

def ofsOf : Getopt → Option (List Char)
  | .optArg c a => if c = 'F' then some a else none
  | .opt _ | .unknown => none

def rejectOf : Getopt → Option MainExit
  | .opt c => if c = 'c' ∨ c = 'C' ∨ c = 'n' ∨ c = 'd' ∨ c = 'u' then none else some .usage
  | .optArg c a =>
    if c = 'F' then (if (cstr a).length = 1 then none else some .badOfs)
    else if c = 'D' ∨ c = 'U' then none else some .usage
  | .unknown => some .usage

/-- The options `rs` as a user reads them, from the options `o`: the first option that stops
`main` says why it stops; otherwise each setting is the one the last option for it asks for,
`-n` anywhere negates, and a setting no option asks for keeps its value in `o`. -/
def optionsMeaning (o : UserOpts) (rs : List Getopt) : Except MainExit UserOpts :=
  match (rs.filterMap rejectOf).head? with
  | some x => .error x
  | none => .ok { o with
      showhdr := ((rs.filterMap showOf).getLast?).getD o.showhdr
      negate := o.negate || rs.contains (.opt 'n')
      timeconv := ((rs.filterMap convOf).getLast?).getD o.timeconv
      ofs := ((rs.filterMap ofsOf).getLast?).getD o.ofs
      timefmt := ((rs.filterMap fmtOf).getLast?).getD o.timefmt }

theorem getLast?_filterMap_cons {α β : Type} (f : α → Option β) (r : α) (rs : List α) (d : β) :
    ((List.filterMap f (r :: rs)).getLast?).getD d = ((rs.filterMap f).getLast?).getD ((f r).getD d) := by
  cases h : f r <;> simp [List.filterMap_cons, h, List.getLast?_cons]

theorem optionsMeaning_cons (o : UserOpts) (r : Getopt) (rs : List Getopt) :
    optionsMeaning o (r :: rs) = (optionsMeaning o [r]).bind fun o' => optionsMeaning o' rs := by
  cases hr : rejectOf r with
  | some x => simp [optionsMeaning, hr]
  | none =>
    simp only [optionsMeaning, List.filterMap_cons_none hr, List.filterMap_nil, List.head?_nil,
      except_bind_ok, getLast?_filterMap_cons, List.getLast?_nil, Option.getD_none]
    split <;> simp [Bool.or_assoc]

/-- One case of the `switch` does what the option means. -/
theorem applyOpt_eq_meaning (o : UserOpts) (r : Getopt) : applyOpt o r = optionsMeaning o [r] := by
  cases r with
  | opt c =>
    by_cases hc : c = 'c'; · subst hc; simp [applyOpt, optionsMeaning, rejectOf, showOf, convOf, fmtOf, ofsOf]
    by_cases hC : c = 'C'; · subst hC; simp [applyOpt, optionsMeaning, rejectOf, showOf, convOf, fmtOf, ofsOf]
    by_cases hn : c = 'n'; · subst hn; simp [applyOpt, optionsMeaning, rejectOf, showOf, convOf, fmtOf, ofsOf]
    by_cases hd : c = 'd'; · subst hd; simp [applyOpt, optionsMeaning, rejectOf, showOf, convOf, fmtOf, ofsOf]
    by_cases hu : c = 'u'; · subst hu; simp [applyOpt, optionsMeaning, rejectOf, showOf, convOf, fmtOf, ofsOf]
    simp [applyOpt, optionsMeaning, rejectOf, hc, hC, hn, hd, hu]
  | optArg c a =>
    by_cases hF : c = 'F'
    · subst hF
      by_cases hl : (cstr a).length = 1 <;> simp [applyOpt, optionsMeaning, rejectOf, showOf, convOf, fmtOf, ofsOf, hl]
    by_cases hD : c = 'D'; · subst hD; simp [applyOpt, optionsMeaning, rejectOf, showOf, convOf, fmtOf, ofsOf]
    by_cases hU : c = 'U'; · subst hU; simp [applyOpt, optionsMeaning, rejectOf, showOf, convOf, fmtOf, ofsOf]
    simp [applyOpt, optionsMeaning, rejectOf, hF, hD, hU]
  | unknown => rfl

theorem foldlM_applyOpt (o : UserOpts) (rs : List Getopt) : rs.foldlM applyOpt o = optionsMeaning o rs := by
  induction rs generalizing o with
  | nil => simp [optionsMeaning]
  | cons r rs ih =>
    rw [List.foldlM_cons, optionsMeaning_cons, ← applyOpt_eq_meaning]
    cases applyOpt o r with
    | error x => rfl
    | ok o' => exact ih o'

/-- `main` reads its options as a user does: it stops at the first option it rejects (`-h`, an
unknown option, a missing argument, or a `-F` argument that is not one byte); otherwise each
setting is the one the last option for it asks for, whatever comes between, `-n` anywhere
negates, a time format comes only from `-D` or `-U` (so `-u` after `-D fmt` keeps `fmt`), and the
operands are the columns. -/
theorem mainOpts_meaning (env : Option (List Char)) (args : List (List Char)) :
    mainOpts env args = (optionsMeaning (initialOpts env) (getopt none args).1).map
      fun o => { o with columns := (getopt none args).2 } := by
  rw [mainOpts, foldlM_applyOpt]

end BroCut
