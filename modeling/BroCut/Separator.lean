import BroCut.CString

/-!
# `parsesep` and `strtol`

`parsesep` reads the separator of a `#separator ` header line: after a `\x` it is the byte
that `strtol(sepstr + 2, NULL, 16)` converts to, otherwise the first byte. `strtol` is
glibc's on a 64-bit `long`: leading white space, a sign, for base 16 a `0x` prefix, then
every digit of the base; a value beyond `long` is clamped to `LONG_MAX` or `LONG_MIN`.
Assigning the `long` to a `char` keeps its low byte.

So the escape is not read as exactly two hex digits: every hex digit after `\x` counts,
and without one the result is NUL, not the backslash (`parsesep_escape`).
-/

namespace BroCut

/-- `isspace` in the C locale. -/
def isSpace (c : Char) : Bool :=
  c = ' ' || c = '\t' || c = '\n' || c = '\x0b' || c = '\x0c' || c = '\r'

/-- The digit `c` stands for in any base: `0`-`9`, then the letters in either case; 36 for
a byte that is no digit. -/
def digitRaw (c : Char) : Nat :=
  if '0' ≤ c ∧ c ≤ '9' then c.toNat - '0'.toNat
  else if 'a' ≤ c ∧ c ≤ 'z' then c.toNat - 'a'.toNat + 10
  else if 'A' ≤ c ∧ c ≤ 'Z' then c.toNat - 'A'.toNat + 10
  else 36

def digitVal (base : Nat) (c : Char) : Option Nat :=
  if digitRaw c < base then some (digitRaw c) else none

def digitsValue (base acc : Nat) : List Char → Nat
  | [] => acc
  | c :: cs =>
    match digitVal base c with
    | some d => digitsValue base (acc * base + d) cs
    | none => acc

/-- `LONG_MAX` of a 64-bit `long`, 2^63 - 1. -/
def longMax : Int := 9223372036854775807

def longMin : Int := -9223372036854775808

def stripSign : List Char → Bool × List Char
  | '-' :: s => (true, s)
  | '+' :: s => (false, s)
  | s => (false, s)

def strip0x : List Char → List Char
  | '0' :: x :: s => if x = 'x' ∨ x = 'X' then s else '0' :: x :: s
  | s => s

def strtol (s : List Char) (base : Nat) : Int :=
  let (neg, s) := stripSign (s.dropWhile isSpace)
  let n : Int := digitsValue base 0 (if base = 16 then strip0x s else s)
  if neg then max (-n) longMin else min n longMax

/-- The `char` a `long` is assigned to: its low byte. -/
def toChar (v : Int) : Char := Char.ofNat (v % 256).toNat

def parsesep (sepstr : List Char) : Char :=
  if hasPrefix sepstr "\\x" then toChar (strtol (sepstr.drop 2) 16) else sepstr.headD nul

def isHex (c : Char) : Bool := (digitVal 16 c).isSome

theorem digitsValue_append {base acc : Nat} {ds : List Char}
    (hds : ∀ c ∈ ds, (digitVal base c).isSome) (rest : List Char) :
    digitsValue base acc (ds ++ rest) = digitsValue base (digitsValue base acc ds) rest := by
  induction ds generalizing acc with
  | nil => rfl
  | cons c cs ih =>
    obtain ⟨d, hd⟩ := Option.isSome_iff_exists.mp (hds c (List.mem_cons_self _ _))
    simp only [List.cons_append, digitsValue, hd]
    exact ih fun x hx => hds x (List.mem_cons_of_mem _ hx)

theorem digitsValue_stop {base acc : Nat} {rest : List Char}
    (h : ∀ c ∈ rest.head?, digitVal base c = none) : digitsValue base acc rest = acc := by
  cases rest with
  | nil => rfl
  | cons c cs => simp [digitsValue, h c rfl]

theorem le_toNat_of_isHex {c : Char} (h : isHex c) : 48 ≤ c.toNat := by
  have hr : digitRaw c < 16 := by
    unfold isHex digitVal at h
    split_ifs at h with hr
    exacts [hr, absurd h (by simp)]
  unfold digitRaw at hr
  split_ifs at hr with h1 h2 h3
  · exact h1.1
  · have : 97 ≤ c.toNat := h2.1
    omega
  · have : 65 ≤ c.toNat := h3.1
    omega
  · omega

theorem isSpace_of_isHex {c : Char} (h : isHex c) : isSpace c = false := by
  have := le_toNat_of_isHex h
  unfold isSpace
  simp only [Bool.or_eq_false_iff, decide_eq_false_iff_not]
  refine ⟨⟨⟨⟨⟨?_, ?_⟩, ?_⟩, ?_⟩, ?_⟩, ?_⟩ <;> rintro rfl <;> simp_all

theorem strip0x_eq_self {s : List Char}
    (h : s.head? ≠ some '0' ∨ ∀ x ∈ s[1]?, x ≠ 'x' ∧ x ≠ 'X') : strip0x s = s := by
  unfold strip0x
  split
  · next x t => simp_all
  · rfl

theorem stripSign_of_ne {c : Char} (t : List Char) (h1 : c ≠ '-') (h2 : c ≠ '+') :
    stripSign (c :: t) = (false, c :: t) := by
  unfold stripSign
  split <;> simp_all

theorem digitVal_lt {base : Nat} {c : Char} {d : Nat} (h : digitVal base c = some d) :
    d < base := by
  unfold digitVal at h
  split_ifs at h with hv
  exact (Option.some.inj h) ▸ hv

theorem strtol_unsigned {s : List Char} (hs : ∀ c ∈ s.head?, isSpace c = false ∧ c ≠ '-' ∧ c ≠ '+') :
    strtol s 16 = min (digitsValue 16 0 (strip0x s) : Int) longMax := by
  cases s with
  | nil => rfl
  | cons c t =>
    obtain ⟨h1, h2, h3⟩ := hs c rfl
    simp [strtol, List.dropWhile_cons, h1, stripSign_of_ne t h2 h3]

theorem hasPrefix_escape (l : List Char) : hasPrefix ('\\' :: 'x' :: l) "\\x" = true := by
  simp [hasPrefix]

theorem digitVal_of_not_isHex {c : Char} (h : isHex c = false) : digitVal 16 c = none := by
  simpa [isHex] using h

/-- `\x` then a run of hex digits: `parsesep` is the low byte of the whole run's value,
clamped to `LONG_MAX`. -/
theorem parsesep_hex_run {ds rest : List Char} (hne : ds ≠ []) (hds : ∀ c ∈ ds, isHex c)
    (hrest : ∀ c ∈ rest.head?, isHex c = false)
    (h0x : ¬(ds = ['0'] ∧ (rest.head? = some 'x' ∨ rest.head? = some 'X'))) :
    parsesep ('\\' :: 'x' :: (ds ++ rest)) = toChar (min (digitsValue 16 0 ds : Int) longMax) := by
  obtain ⟨c, t, rfl⟩ := List.exists_cons_of_ne_nil hne
  have hc := le_toNat_of_isHex (hds c (List.mem_cons_self _ _))
  have h0 : strip0x (c :: t ++ rest) = c :: t ++ rest := by
    refine strip0x_eq_self ?_
    by_cases hc0 : c = '0'
    · right
      subst hc0
      cases t with
      | nil => rintro x hx; rcases rest with _ | ⟨y, r⟩ <;> simp_all
      | cons d u =>
        have hd := hds d (by simp)
        rintro x hx
        obtain rfl : d = x := by simpa using hx
        exact ⟨by rintro rfl; exact absurd hd (by decide), by rintro rfl; exact absurd hd (by decide)⟩
    · exact .inl (by simpa using hc0)
  have hsign : isSpace c = false ∧ c ≠ '-' ∧ c ≠ '+' :=
    ⟨isSpace_of_isHex (hds c (List.mem_cons_self _ _)), fun h => by subst h; simp at hc,
      fun h => by subst h; simp at hc⟩
  rw [parsesep, if_pos (hasPrefix_escape _), List.drop_succ_cons, List.drop_succ_cons, List.drop_zero,
    strtol_unsigned (by simpa using hsign), h0, digitsValue_append hds,
    digitsValue_stop fun x hx => digitVal_of_not_isHex (hrest x hx)]

theorem digitVal_of_isHex {c : Char} (h : isHex c) : digitVal 16 c = some (digitRaw c) := by
  unfold isHex digitVal at *
  split_ifs at * <;> simp_all

theorem toChar_of_lt {v : Nat} (h : v < 256) : toChar v = Char.ofNat v := by
  rw [toChar, Int.emod_eq_of_lt (by omega) (by omega), Int.toNat_ofNat]

theorem parsesep_two_hex {h1 h2 : Char} (rest : List Char) (hh1 : isHex h1) (hh2 : isHex h2)
    (hrest : ∀ c ∈ rest.head?, isHex c = false) :
    parsesep ('\\' :: 'x' :: h1 :: h2 :: rest) = Char.ofNat (16 * digitRaw h1 + digitRaw h2) := by
  have hv1 := digitVal_lt (digitVal_of_isHex hh1)
  have hv2 := digitVal_lt (digitVal_of_isHex hh2)
  have hrun := @parsesep_hex_run [h1, h2] rest (by simp) (by simp [hh1, hh2]) hrest (by simp)
  have hval : digitsValue 16 0 [h1, h2] = 16 * digitRaw h1 + digitRaw h2 := by
    simp [digitsValue, digitVal_of_isHex hh1, digitVal_of_isHex hh2]
    omega
  rw [List.cons_append, List.cons_append, List.nil_append] at hrun
  rw [hrun, hval, Int.min_eq_left (by rw [longMax]; omega), toChar_of_lt (by omega)]

theorem parsesep_no_digit {rest : List Char}
    (h : ∀ c ∈ rest.head?, isHex c = false ∧ isSpace c = false ∧ c ≠ '-' ∧ c ≠ '+') :
    parsesep ('\\' :: 'x' :: rest) = nul := by
  have h0 : strip0x rest = rest :=
    strip0x_eq_self (.inl fun h0 => absurd (h '0' h0).1 (by decide))
  rw [parsesep, if_pos (hasPrefix_escape _), List.drop_succ_cons, List.drop_succ_cons,
    List.drop_zero, strtol_unsigned fun c hc => (h c hc).2, h0,
    digitsValue_stop fun c hc => digitVal_of_not_isHex (h c hc).1]
  rfl

/-- `parsesep` as the code computes it: the first byte unless the text starts with `\x`;
after `\x`, the low byte of every hex digit that follows, clamped to `LONG_MAX`, which is
the byte of the two digits when exactly two follow, and NUL when no digit, blank or sign
follows. -/
theorem parsesep_spec :
    (∀ p, hasPrefix p "\\x" = false → parsesep p = p.headD nul) ∧
    (∀ h1 h2 rest, isHex h1 → isHex h2 → (∀ c ∈ rest.head?, isHex c = false) →
      parsesep ('\\' :: 'x' :: h1 :: h2 :: rest) = Char.ofNat (16 * digitRaw h1 + digitRaw h2)) ∧
    (∀ ds rest, ds ≠ [] → (∀ c ∈ ds, isHex c) → (∀ c ∈ rest.head?, isHex c = false) →
      ¬(ds = ['0'] ∧ (rest.head? = some 'x' ∨ rest.head? = some 'X')) →
      parsesep ('\\' :: 'x' :: (ds ++ rest)) = toChar (min (digitsValue 16 0 ds : Int) longMax)) ∧
    (∀ rest, (∀ c ∈ rest.head?, isHex c = false ∧ isSpace c = false ∧ c ≠ '-' ∧ c ≠ '+') →
      parsesep ('\\' :: 'x' :: rest) = nul) :=
  ⟨fun p hp => by simp [parsesep, hp], fun _ _ rest hh1 hh2 hrest => parsesep_two_hex rest hh1 hh2 hrest,
    fun _ _ hne hds hrest h0x => parsesep_hex_run hne hds hrest h0x, fun _ h => parsesep_no_digit h⟩

theorem parsesep_spec_instances :
    (hasPrefix "\\x0a".toList "\\x" = true ∧ isHex '0' ∧ isHex 'a') ∧
    parsesep "\\x0a".toList = Char.ofNat 10 :=
  ⟨by decide, (parsesep_spec.2.1 '0' 'a' [] (by decide) (by decide) (by simp))⟩

/-- A third hex digit changes the separator, and a malformed escape gives NUL. -/
theorem parsesep_escape_counterexample :
    parsesep "\\x091".toList ≠ parsesep "\\x09".toList ∧ parsesep "\\xZZ".toList ≠ '\\' := by
  decide

end BroCut
