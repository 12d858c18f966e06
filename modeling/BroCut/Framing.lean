import BroCut.Driver

/-!
# Line framing

`getline` hands the loop each line with its newline, and the last segment of a stream that
does not end in a newline as it is. The loop then overwrites the last byte of what it got
with NUL, which for a newline-terminated line removes the newline (`lineText_newline`) but
for the last segment removes its last byte (`broCut_unterminated`).
-/

namespace BroCut

theorem getlines_no_newline (acc l : List Char) (hl : '\n' ∉ l) :
    getlines acc l = if acc ++ l = [] then [] else [acc ++ l] := by
  induction l generalizing acc with
  | nil => simp [getlines]
  | cons c cs ih =>
    have hc : c ≠ '\n' := fun e => hl (e ▸ List.mem_cons_self _ _)
    simp [getlines, hc, ih (acc ++ [c]) fun h => hl (List.mem_cons_of_mem _ h)]

theorem getlines_line (acc l rest : List Char) (hl : '\n' ∉ l) :
    getlines acc (l ++ '\n' :: rest) = (acc ++ l ++ ['\n']) :: getlines [] rest := by
  induction l generalizing acc with
  | nil => simp [getlines]
  | cons c cs ih =>
    have hc : c ≠ '\n' := fun e => hl (e ▸ List.mem_cons_self _ _)
    simp [getlines, hc, ih (acc ++ [c]) fun h => hl (List.mem_cons_of_mem _ h)]

theorem getlines_render_append (ls : List (List Char)) (seg : List Char)
    (hls : ∀ l ∈ ls, '\n' ∉ l) (hseg : '\n' ∉ seg) :
    getlines [] (render ls ++ seg) =
      ls.map (· ++ ['\n']) ++ if seg = [] then [] else [seg] := by
  induction ls with
  | nil => simp [render, getlines_no_newline [] seg hseg]
  | cons l ls ih =>
    have hcons : render (l :: ls) ++ seg = l ++ '\n' :: (render ls ++ seg) := by simp [render]
    rw [hcons, getlines_line [] l _ (hls l (List.mem_cons_self _ _)),
      ih fun l' hl' => hls l' (List.mem_cons_of_mem _ hl')]
    simp

theorem getlines_render (ls : List (List Char)) (hls : ∀ l ∈ ls, '\n' ∉ l) :
    getlines [] (render ls) = ls.map (· ++ ['\n']) := by
  simpa using getlines_render_append ls [] hls (List.not_mem_nil _)

@[simp] theorem lineText_newline (l : List Char) : lineText (l ++ ['\n']) = cstr l := by
  simp [lineText]

variable {Tm : Type} (tl : TimeLib Tm)

theorem broCut_render (o : UserOpts) (ls : List (List Char)) (hls : ∀ l ∈ ls, '\n' ∉ l) :
    broCut tl o (render ls) = exec tl o .start (ls.map (· ++ ['\n'])) := by
  rw [broCut, getlines_render ls hls]

/-- A last segment without a newline is processed as a line of its own, whose text is the
segment without its last byte. -/
theorem broCut_unterminated (o : UserOpts) (ls : List (List Char)) (seg : List Char)
    (hls : ∀ l ∈ ls, '\n' ∉ l) (hseg : '\n' ∉ seg) (hne : seg ≠ []) :
    broCut tl o (render ls ++ seg) =
      (exec tl o .start (ls.map (· ++ ['\n']))).feed tl o seg ∧
      lineText seg = cstr seg.dropLast := by
  rw [broCut, getlines_render_append ls seg hls hseg, if_neg hne, exec_append]
  exact ⟨rfl, rfl⟩

/-- The last record of a log without a final newline loses its last byte. -/
theorem unterminated_record_truncated :
    (broCut TimeLib.stub ⟨0, false, 0, [], [], []⟩
      "#separator \\x09\n#fields\ta\n#types\tstring\nxy".toList).stdout = "x\n".toList ∧
    (broCut TimeLib.stub ⟨0, false, 0, [], [], []⟩
      "#separator \\x09\n#fields\ta\n#types\tstring\nxy\n".toList).stdout = "xy\n".toList := by
  have hls : ∀ l ∈ ["#separator \\x09".toList, "#fields\ta".toList, "#types\tstring".toList], '\n' ∉ l := by
    decide
  constructor
  · rw [show "#separator \\x09\n#fields\ta\n#types\tstring\nxy".toList =
      render ["#separator \\x09".toList, "#fields\ta".toList, "#types\tstring".toList] ++ "xy".toList from rfl,
      (broCut_unterminated TimeLib.stub _ _ _ hls (by decide) (by decide)).1]
    decide
  · rw [show "#separator \\x09\n#fields\ta\n#types\tstring\nxy\n".toList =
      render ["#separator \\x09".toList, "#fields\ta".toList, "#types\tstring".toList, "xy".toList] from rfl,
      broCut_render TimeLib.stub _ _ (by decide)]
    decide

end BroCut
