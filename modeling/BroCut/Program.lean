import BroCut.Options
import BroCut.Status

/-!
# The program

`main` over `bro_cut`. With no `#separator ` line declaring NUL and, under time conversion, a
time for every field of every data line, the program always exits: with 1 when `main` rejects
its command line, and otherwise with what `bro_cut` returns, which is 0 exactly when no line of
the input breaks the header order (`main_status`).
-/

namespace BroCut

variable {Tm : Type} (tl : TimeLib Tm)

theorem broCut_status (o : UserOpts) (input : List Char)
    (hsep : ∀ l ∈ getlines [] input, classify (lineText l) = .separator → parsesep (cstr (l.dropLast.drop 11)) ≠ nul)
    (hcal : CalendarCovers tl o (getlines [] input)) :
    (broCut tl o input).status = some (if firstViolation o (getlines [] input) = none then 0 else 1) := by
  obtain ⟨hn, hs⟩ := exec_outcome tl o (getlines [] input) hsep hcal
  cases hv : firstViolation o (getlines [] input) with
  | none =>
    obtain ⟨st, out, err, h, -⟩ := hn hv
    rw [broCut, h]
    rfl
  | some i =>
    obtain ⟨-, st, out, err, d, -, h⟩ := hs i hv
    rw [broCut, h]
    rfl

end BroCut
