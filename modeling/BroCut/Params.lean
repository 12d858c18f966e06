import BroCut.CString

/-!
# Options, run parameters and diagnostics

`UserOpts` is `struct useropts`, fixed for a run. `LogParams` is `struct logparams`, which
each header block rewrites. Its arrays are lists: `outIndexes` holds the first
`num_out_indexes` entries of `out_indexes` and `outAlloc` the length of its allocation,
`tmpAlloc` is the number of slots of `tmp_fields` (their contents live only inside one
call), and `timeCols` is the whole `time_cols` array. The calendar functions of the C
library are a parameter of the model (`TimeLib`).
-/

namespace BroCut

structure UserOpts where
  showhdr : Nat
  negate : Bool
  timeconv : Nat
  columns : List (List Char)
  ofs : List Char
  timefmt : List Char

structure LogParams where
  outIndexes : List Int
  outAlloc : Nat
  idxRange : Nat
  timeCols : List Bool
  tmpAlloc : Nat
  numFields : Nat
  ifs : Char
  ofs : Char
  deriving DecidableEq

/-- The parameters `bro_cut` starts from: nothing allocated, tab separators. -/
def LogParams.init : LogParams := ⟨[], 0, 0, [], 0, 0, '\t', '\t'⟩

/-- The messages bro-cut writes to standard error (out of memory apart). -/
inductive Diag where
  | skipLine
  | missingTypes
  | missingFields
  | fewTypes
  | truncating
  deriving DecidableEq, Repr

def Diag.text : Diag → String
  | .skipLine => "bro-cut: skipping log line (not enough fields)\n"
  | .missingTypes => "bro-cut: bad log header (missing #types line)\n"
  | .missingFields => "bro-cut: bad log header (missing #fields line)\n"
  | .fewTypes => "bro-cut: log header does not have enough fields\n"
  | .truncating => "bro-cut: truncating timestamp (too long)\n"

structure Emit where
  out : List (List Char)
  err : List Diag
  deriving DecidableEq

/-- The C library as the process finds it, its environment (`TZ`, the locale) fixed for the
run: `localtime` and `gmtime` (`none` is their NULL result), and `strftime` into the
`MAX_TIMESTAMP_LEN`-byte buffer, with the bytes it leaves there and whether it returned
non-zero. When it returns 0 the buffer's contents are indeterminate in C, so the bytes given
then stand for one of the values it may hold; results about the text written assume a format
that fits (`TimeLib.Fits`). -/
structure TimeLib (Tm : Type) where
  localtime : Int → Option Tm
  gmtime : Int → Option Tm
  strftime : List Char → Tm → List Char × Bool

def maxTimestampLen : Nat := 100

/-- `INT_MAX` of a 32-bit `int`. -/
def intMax : Nat := 2147483647

/-- `strftime` returns non-zero for the format `fmt` at every time: no conversion truncates. -/
def TimeLib.Fits {Tm : Type} (tl : TimeLib Tm) (fmt : List Char) : Prop := ∀ tm, (tl.strftime fmt tm).2 = true

/-- A calendar that never fails and writes every time as `T`, for runs on fixed inputs. -/
def TimeLib.stub : TimeLib Unit := ⟨fun _ => some (), fun _ => some (), fun _ _ => (['T'], true)⟩

end BroCut
