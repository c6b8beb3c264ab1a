import Mathlib.Data.Nat.Digits.Defs
import Xv6.Lines
import Xv6.ShellLines

namespace Xv6

/-- The function of ulib, on an int of 32 bits. -/
def atoiLoop (n : Int) : Text → Int
  | [] => n
  | c :: s => if '0' ≤ c ∧ c ≤
    '9' then atoiLoop ((n * 10 + c.toNat - '0'.toNat).bmod (2 ^ 32)) s else n

def atoi (s : Text) : Int := atoiLoop 0 s

namespace Tail

abbrev MAX_LINES : Nat := 100

abbrev MAX_LINE_LENGTH : Nat := 512

/-- The string that strlen and strcpy find in memory; without a zero they run out of it. -/
def string (mem : Text) : Option Text := if nul ∈ mem then some (cstr mem) else none

/-- The loop from an int on: a negative one is an index before the array. -/
def printLastlines (lines : List Text) (n : Int) : Option Text :=
  let start := if (lines.length : Int) > n then (lines.length - n).bmod (2 ^ 32) else 0
  if start < 0 then none else some (lines.drop start.toNat).flatten

/-- The loop over the characters of one line: the array, i, and what is left of the input. -/
def readLine : Text → Nat → Text → Text × Nat × Text
  | line, i, [] => (line, i, [])
  | line, i, c :: input =>
    if c = '\n' ∨ i = MAX_LINE_LENGTH - 2 then ((line.set i c).set (i + 1) nul, i + 1, input)
    else readLine (line.set i c) (i + 1) input

/-- The lines stored, of at most so many more; above is what lies behind the array on the stack. -/
def readAndStorelines (above : Text) : Nat → Text → Text → Option (List Text)
  | 0, _, _ => some []
  | room + 1, line, input =>
    let (line, i, input) := readLine line 0 input
    if i = 0 then some []
    else do
      let s ← string (line ++ above)
      let lines ← readAndStorelines above room line input
      return s :: lines

/-- What tail writes to its output and to its error output, with line the array as it is on entry.
-/
def main (above line : Text) (files : Text → Option Text) (stdin : Text) (args : List Text) :
    Option (Text × Text) :=
  let (n, args) := match args with
    | ('-' :: s) :: args => (atoi s, args)
    | args => (10, args)
  match args with
  | [] => do
    let lines ← readAndStorelines above MAX_LINES line stdin
    return (← printLastlines lines n, [])
  | name :: _ =>
    match files name with
    | none => some ([], "tail: can't be opened :( ".toList ++ name ++ ['\n'])
    | some input => do
      let lines ← readAndStorelines above MAX_LINES line input
      return (← printLastlines lines n, [])

/-- The bytes of the last n lines. -/
def lastLines (n : Nat) (input : Text) : Text :=
  ((Lines.lines '\n' input).drop ((Lines.lines '\n' input).length - n)).flatten

/-- A string stored at the beginning of the array. -/
def overwrite (line s : Text) : Text := s ++ line.drop s.length

/-- The array when the last newline has been read. -/
def leftover (line input : Text) : Text :=
  (Lines.cut '\n' input).1.foldl (fun line l => overwrite line (l ++ [nul])) line

/-- An unfinished last line finds a zero behind it in the array. -/
def Ends (line input : Text) : Prop :=
  (Lines.cut '\n' input).2 = [] ∨ (leftover line input)[(Lines.cut '\n' input).2.length]? = some nul

instance (line input : Text) : Decidable (Ends line input) := inferInstanceAs (Decidable (_ ∨ _))

variable {above line w t input : Text} {room n : Nat}

theorem atoiLoop_digit {a : Int} {s : Text} (hs : ∀ c ∈ s, '0' ≤ c ∧ c ≤ '9') (k : Nat)
    (hk : k < 10) :
    atoiLoop a (s ++ [Nat.digitChar k]) = (atoiLoop a s * 10 + k).bmod (2 ^ 32) := by
  induction s generalizing a with
  | nil =>
    have hd : ∀ k < 10, ('0' ≤ Nat.digitChar k ∧ Nat.digitChar k ≤ '9') ∧
        (Nat.digitChar k).toNat = '0'.toNat + k := by
      decide
    obtain ⟨hdigit, hval⟩ := hd k hk
    have hsub : a * 10 + (('0'.toNat + k : Nat) : Int) - '0'.toNat = a * 10 + k := by omega
    simp only [List.nil_append, atoiLoop, if_pos hdigit, hval, hsub]
  | cons c s ih =>
    have hc := hs c List.mem_cons_self
    rw [List.cons_append, atoiLoop, if_pos hc, ih fun c hc => hs c (List.mem_cons_of_mem _ hc)]
    conv_rhs => rw [atoiLoop, if_pos hc]

theorem digit_of_mem_toDigits (n : Nat) : ∀ c ∈ Nat.toDigits 10 n, '0' ≤ c ∧ c ≤ '9' := by
  have hd : ∀ k < 10, '0' ≤ Nat.digitChar k ∧ Nat.digitChar k ≤ '9' := by decide
  induction n using Nat.strongRecOn with
  | ind n ih =>
    intro c hc
    rw [Nat.toDigits_eq_if (by decide)] at hc
    split at hc
    · next hn =>
      rw [List.mem_singleton] at hc
      exact hc ▸ hd n hn
    · next hn =>
      rcases List.mem_append.mp hc with hc | hc
      · exact ih _ (by omega) c hc
      · rw [List.mem_singleton] at hc
        exact hc ▸ hd _ (Nat.mod_lt n (by decide))

theorem atoi_toDigits (hn : n < 2 ^ 31) : atoi (Nat.toDigits 10 n) = n := by
  have hmod : ∀ m : Nat, m < 2 ^ 31 → (m : Int).bmod (2 ^ 32) = m :=
    fun m hm => Int.bmod_eq_of_le (by omega) (by omega)
  induction n using Nat.strongRecOn with
  | ind n ih =>
    rw [Nat.toDigits_eq_if (by decide)]
    split
    next hlt =>
      have hdigit := @atoiLoop_digit 0 [] (fun c hc => absurd hc List.not_mem_nil) n hlt
      rw [atoiLoop, Int.zero_mul, Int.zero_add, hmod n hn] at hdigit
      exact hdigit
    next hge =>
      have hdiv : ((n / 10 : Nat) : Int) * 10 + (n % 10 : Nat) = n := by omega
      rw [atoi, atoiLoop_digit (digit_of_mem_toDigits _) _ (Nat.mod_lt n (by decide)), ← atoi,
        ih (n / 10) (by omega) (by omega), hdiv, hmod n hn]

theorem set_overwrite {s : Text} (c : Char) (h : s.length < line.length) :
    (overwrite line s).set s.length c = overwrite line (s ++ [c]) := by
  rw [overwrite, overwrite, List.set_append_right _ _ le_rfl, Nat.sub_self,
    List.drop_eq_getElem_cons h,
    List.set_cons_zero, List.append_assoc, List.length_append, List.length_singleton,
      List.singleton_append]

theorem readLine_chars {s : Text} (hw : '\n' ∉ w) (hlen : s.length + w.length ≤ MAX_LINE_LENGTH - 2)
    (hl : line.length = MAX_LINE_LENGTH) :
    readLine (overwrite line s) s.length (w ++ t) =
      readLine (overwrite line (s ++ w)) (s ++ w).length t := by
  induction w generalizing s with
  | nil => rw [List.append_nil, List.nil_append]
  | cons c w ih =>
    simp only [List.mem_cons, not_or] at hw
    simp only [List.length_cons] at hlen
    have hgo : ¬ (c = '\n' ∨ s.length = MAX_LINE_LENGTH - 2) := by
      rintro (he | he)
      · exact hw.1 he.symm
      · omega
    have hstep := @ih (s ++ [c]) hw.2 (by rw [List.length_append, List.length_singleton]; omega)
    rw [List.append_assoc, List.singleton_append, List.length_append,
      List.length_singleton] at hstep
    rw [List.cons_append, readLine, if_neg hgo, set_overwrite c (by omega), hstep]

theorem readLine_eof (hw : '\n' ∉ w) (hlen : w.length ≤ MAX_LINE_LENGTH - 2)
    (hl : line.length = MAX_LINE_LENGTH) :
    readLine line 0 w = (overwrite line w, w.length, []) := by
  have h := @readLine_chars line w [] [] hw (by simpa using hlen) hl
  rwa [List.append_nil, readLine] at h

theorem readLine_newline (hw : '\n' ∉ w) (hlen : w.length ≤ MAX_LINE_LENGTH - 2)
    (hl : line.length = MAX_LINE_LENGTH) :
    readLine line 0 (w ++ '\n' :: t) =
      (overwrite line (w ++ ['\n'] ++ [nul]), w.length + 1, t) := by
  have h := @readLine_chars line w ('\n' :: t) [] hw (by simpa using hlen) hl
  simp only [MAX_LINE_LENGTH] at hlen hl
  have hset := @set_overwrite line w '\n' (by omega)
  have hzero := @set_overwrite line (w ++ ['\n']) nul
    (by rw [List.length_append, List.length_singleton]; omega)
  rw [List.length_append, List.length_singleton] at hzero
  rw [List.nil_append, readLine, if_pos (.inl rfl), hset, hzero] at h
  exact h

theorem overwrite_length {s : Text} (h : s.length ≤ line.length) :
    (overwrite line s).length = line.length := by
  rw [overwrite, List.length_append, List.length_drop]
  omega

theorem cstr_append_nul (s t : Text) : cstr (s ++ nul :: t) = cstr s := by
  induction s with
  | nil => rfl
  | cons c s ih =>
    simp only [cstr] at ih
    simp only [cstr, List.cons_append, List.takeWhile_cons, ih]

theorem store_nil : readAndStorelines above room line [] = some [] := by
  cases room <;> rfl

theorem store_line (hw : '\n' ∉ w) (hlen : w.length ≤ MAX_LINE_LENGTH - 2)
    (hl : line.length = MAX_LINE_LENGTH) :
    readAndStorelines above (room + 1) line (w ++ '\n' :: t) =
      (readAndStorelines above room (overwrite line (w ++ ['\n'] ++ [nul])) t).map
        (cstr (w ++ ['\n']) :: ·) := by
  have hstr : string (overwrite line (w ++ ['\n'] ++ [nul]) ++ above) =
      some (cstr (w ++ ['\n'])) := by
    rw [overwrite, List.append_assoc, List.append_assoc (w ++ ['\n']), List.singleton_append,
      string, if_pos (by simp), cstr_append_nul]
  simp only [readAndStorelines, readLine_newline hw hlen hl, if_neg (Nat.succ_ne_zero _), hstr]
  cases readAndStorelines above room (overwrite line (w ++ ['\n'] ++ [nul])) t <;> rfl

/-- A line without one is stored up to the first zero there is in memory. -/
theorem store_rest (hw : '\n' ∉ w) (hne : w ≠ []) (hlen : w.length ≤ MAX_LINE_LENGTH - 2)
    (hl : line.length = MAX_LINE_LENGTH) :
    readAndStorelines above (room + 1) line w = (string (overwrite line w ++ above)).map ([·]) := by
  have hi : w.length ≠ 0 := fun h => hne (List.eq_nil_of_length_eq_zero h)
  simp only [readAndStorelines, readLine_eof hw hlen hl, if_neg hi, store_nil]
  cases string (overwrite line w ++ above) <;> rfl

theorem store_cases {lines : List Text}
    (h : readAndStorelines above (room + 1) line input = some lines) :
    lines = [] ∨ ∃ mem s line' input' lines', string mem = some s ∧
      readAndStorelines above room line' input' = some lines' ∧ lines = s :: lines' := by
  simp only [readAndStorelines] at h
  split at h
  · exact .inl (Option.some.inj h).symm
  · obtain ⟨s, hs, h⟩ := Option.bind_eq_some_iff.mp h
    obtain ⟨lines', hlines, h⟩ := Option.bind_eq_some_iff.mp h
    exact .inr ⟨_, s, _, _, lines', hs, hlines, (Option.some.inj h).symm⟩

theorem nul_notMem_string {mem s : Text} (h : string mem = some s) : nul ∉ s := by
  unfold string at h
  split at h
  · cases h
    exact fun hm => by simpa using List.mem_takeWhile_imp hm
  · cases h

theorem store_bounds {lines : List Text}
    (h : readAndStorelines above room line input = some lines) :
    lines.length ≤ room ∧ ∀ l ∈ lines, nul ∉ l := by
  induction room generalizing line input lines with
  | zero =>
    cases h
    exact ⟨le_rfl, fun l hl => absurd hl List.not_mem_nil⟩
  | succ room ih =>
    rcases store_cases h with rfl | ⟨mem, s, line', input', lines', hs, hrest, rfl⟩
    · exact ⟨Nat.zero_le _, fun l hl => absurd hl List.not_mem_nil⟩
    · obtain ⟨hlen, hnul⟩ := ih hrest
      refine ⟨by rw [List.length_cons]; omega, fun l hl => ?_⟩
      rcases List.mem_cons.mp hl with rfl | hl
      · exact nul_notMem_string hs
      · exact hnul l hl

theorem string_append_eq_iff {mem : Text} (hnul : nul ∉ w) :
    string (w ++ mem) = some w ↔ mem.head? = some nul := by
  have hcstr : cstr (w ++ mem) = w ++ cstr mem := by
    simp only [cstr]
    rw [List.takeWhile_append_of_pos fun c hc => by simpa using fun he : c = nul => hnul (he ▸ hc)]
  cases mem with
  | nil => simp [string, hnul]
  | cons c mem =>
    rw [string, hcstr, List.head?_cons]
    by_cases hc : c = nul
    · simp [hc, cstr]
    · have hne : cstr (c :: mem) ≠ [] := by simp [cstr, hc]
      refine iff_of_false (fun h => ?_) fun h => hc (Option.some.inj h)
      split at h
      · exact hne (List.append_right_eq_self.mp (Option.some.inj h))
      · cases h

theorem leftover_line (hw : '\n' ∉ w) :
    leftover line (w ++ '\n' :: t) = leftover (overwrite line (w ++ ['\n'] ++ [nul])) t := by
  rw [leftover, leftover, Lines.cut_line hw, List.foldl_cons]

/-- A stream without zeros and without too many lines is stored as it is, up to the end of an
unfinished last line. -/
theorem store_eq (hl : line.length = MAX_LINE_LENGTH)
    (hshort : ∀ l ∈ Lines.lines '\n' input, l.length ≤ MAX_LINE_LENGTH - 2) (hnul : nul ∉ input)
    (hroom : (Lines.lines '\n' input).length ≤ room) :
    (leftover line input).length = MAX_LINE_LENGTH ∧
    readAndStorelines above room line input =
      if (Lines.cut '\n' input).2 = [] then some (Lines.cut '\n' input).1
      else (string (overwrite (leftover line input) (Lines.cut '\n' input).2 ++ above)).map
        ((Lines.cut '\n' input).1 ++ [·]) := by
  induction input using Lines.lines_induction '\n' generalizing room line with
  | rest w hw =>
    rw [leftover, Lines.cut_of_notMem hw]
    refine ⟨hl, ?_⟩
    by_cases hne : w = []
    · rw [if_pos hne, hne, store_nil]
    · rw [Lines.lines_of_notMem hw hne] at hshort hroom
      obtain ⟨k, rfl⟩ : ∃ k, room = k + 1 := ⟨room - 1, by rw [List.length_singleton] at hroom; omega⟩
      rw [if_neg hne, store_rest hw hne (hshort w List.mem_cons_self) hl]
      rfl
  | line w t hw ih =>
    rw [Lines.lines_line hw] at hshort hroom
    rw [List.length_cons] at hroom
    obtain ⟨k, rfl⟩ : ∃ k, room = k + 1 := ⟨room - 1, by omega⟩
    simp only [List.mem_append, List.mem_cons, not_or] at hnul
    have hw510 := hshort _ List.mem_cons_self
    simp only [List.length_append, List.length_singleton, MAX_LINE_LENGTH] at hw510
    have hlen : (overwrite line (w ++ ['\n'] ++ [nul])).length = MAX_LINE_LENGTH := by
      rw [overwrite_length, hl]
      simp only [List.length_append, List.length_singleton, hl, MAX_LINE_LENGTH]
      omega
    have hcstr : cstr (w ++ ['\n']) = w ++ ['\n'] := cstr_eq (by simpa using ⟨hnul.1, hnul.2.1⟩)
    obtain ⟨hleft, hstore⟩ :=
      ih hlen (fun l hmem => hshort l (List.mem_cons_of_mem _ hmem)) hnul.2.2
      (Nat.le_of_succ_le_succ hroom)
    rw [leftover_line hw, store_line hw (by simp only [MAX_LINE_LENGTH]; omega) hl, hstore, hcstr,
      Lines.cut_line hw]
    refine ⟨hleft, ?_⟩
    split
    · rfl
    · rw [Option.map_map]
      rfl

theorem printLastlines_eq {lines : List Text} (n : Nat) (h : lines.length ≤ MAX_LINES) :
    printLastlines lines n = some (lines.drop (lines.length - n)).flatten := by
  have hstart : (if (lines.length : Int) > n then ((lines.length : Int) - n).bmod (2 ^ 32) else 0) =
      (lines.length - n : Nat) := by
    simp only [MAX_LINES] at h
    split
    · rw [Int.bmod_eq_of_le (by omega) (by omega)]
      omega
    · omega
  rw [printLastlines, hstart, if_neg (by omega), Int.toNat_natCast]

theorem main_eq {files : Text → Option Text} (hn : n < 2 ^ 31) :
    main above line files input ['-' :: Nat.toDigits 10 n] =
      (readAndStorelines above MAX_LINES line input).map fun lines =>
        ((lines.drop (lines.length - n)).flatten, []) := by
  simp only [main, atoi_toDigits hn]
  cases hstore : readAndStorelines above MAX_LINES line input with
  | none => rfl
  | some lines =>
    rw [Option.bind_eq_bind, Option.bind_some, printLastlines_eq n (store_bounds hstore).1]
    rfl

theorem lastLines_of_le (h : (Lines.lines '\n' input).length ≤ n) : lastLines n input = input := by
  rw [lastLines, Nat.sub_eq_zero_of_le h, List.drop_zero, Lines.flatten_lines]

theorem lastLines_lt (h : n < (Lines.lines '\n' input).length) :
    (lastLines n input).length < (lastLines (n + 1) input).length := by
  have hpos : (Lines.lines '\n' input).length - (n + 1) < (Lines.lines '\n' input).length := by
    omega
  have hne := Lines.lines_ne_nil '\n' input _ (List.getElem_mem hpos)
  have hlen := List.length_pos_iff.mpr hne
  rw [lastLines, lastLines, List.drop_eq_getElem_cons hpos, List.flatten_cons, List.length_append,
    (by omega : (Lines.lines '\n' input).length - (n + 1) + 1 = (Lines.lines '\n' input).length - n)]
  omega

theorem string_overwrite_iff {mem rest : Text} (hnul : nul ∉ rest)
    (hlen : rest.length < mem.length) :
    string (overwrite mem rest ++ above) = some rest ↔ mem[rest.length]? = some nul := by
  rw [overwrite, List.append_assoc, string_append_eq_iff hnul, List.drop_eq_getElem_cons hlen,
    List.cons_append, List.head?_cons, List.getElem?_eq_getElem hlen]

section

variable (hl : line.length = MAX_LINE_LENGTH)
  (hshort : ∀ l ∈ Lines.lines '\n' input, l.length ≤ MAX_LINE_LENGTH - 2) (hnul : nul ∉ input)
  (hroom : (Lines.lines '\n' input).length ≤ room)

include hl hshort hnul hroom

theorem rest_string_iff (hrest : (Lines.cut '\n' input).2 ≠ []) :
    string (overwrite (leftover line input) (Lines.cut '\n' input).2 ++ above) =
      some (Lines.cut '\n' input).2 ↔
      Ends line input := by
  have hleft := (@store_eq above line input room hl hshort hnul hroom).1
  have hlen := hshort (Lines.cut '\n' input).2 (by rw [Lines.lines_of_rest_ne hrest]; simp)
  simp only [MAX_LINE_LENGTH] at hleft hlen
  rw [string_overwrite_iff (fun hm => hnul (Lines.rest_subset _ _ hm)) (by omega)]
  exact ⟨.inr, fun h => h.resolve_left hrest⟩

theorem store_of_ends (h : Ends line input) :
    readAndStorelines above room line input = some (Lines.lines '\n' input) := by
  rw [(store_eq hl hshort hnul hroom).2]
  by_cases hrest : (Lines.cut '\n' input).2 = []
  · rw [if_pos hrest, Lines.lines_of_rest hrest]
  · rw [if_neg hrest, (rest_string_iff hl hshort hnul hroom hrest).mpr h,
      Lines.lines_of_rest_ne hrest]
    rfl

theorem ends_of_store {lines : List Text} (h : readAndStorelines above room line input = some lines)
    (hflat : lines.flatten = input) : Ends line input := by
  rw [(store_eq hl hshort hnul hroom).2] at h
  by_cases hrest : (Lines.cut '\n' input).2 = []
  · exact .inl hrest
  · rw [if_neg hrest] at h
    obtain ⟨s, hs, rfl⟩ := Option.map_eq_some_iff.mp h
    rw [List.flatten_append, List.flatten_singleton] at hflat
    have hrs : s = (Lines.cut '\n' input).2 :=
      List.append_cancel_left (hflat.trans (Lines.flatten_cut '\n' input).symm)
    exact (rest_string_iff hl hshort hnul hroom hrest).mp (hrs ▸ hs)

end

/-- Too many lines: the last hundred and the last hundred and one come out alike. -/
theorem lines_le_of_prints {files : Text → Option Text}
    (h : ∀ n < 2 ^ 31, main above line files input ['-' :: Nat.toDigits 10 n] =
      some (lastLines n input, [])) :
    (Lines.lines '\n' input).length ≤ MAX_LINES := by
  by_contra hlt
  have hlong := lastLines_lt (Nat.lt_of_not_le hlt)
  have h0 := h MAX_LINES (by decide)
  have h1 := h (MAX_LINES + 1) (by decide)
  rw [main_eq (by decide)] at h0 h1
  obtain ⟨lines, hstore, hout0⟩ := Option.map_eq_some_iff.mp h0
  obtain ⟨_, hstore', hout1⟩ := Option.map_eq_some_iff.mp h1
  cases hstore.symm.trans hstore'
  have hle := (store_bounds hstore).1
  rw [Nat.sub_eq_zero_of_le hle] at hout0
  rw [Nat.sub_eq_zero_of_le (hle.trans (Nat.le_succ _))] at hout1
  rw [← (Prod.mk.inj hout0).1, ← (Prod.mk.inj hout1).1] at hlong
  exact absurd hlong (lt_irrefl _)

/-- Tail prints the end of its input for every number of lines just when there are at most MAX_LINES
of them, without zeros, and a last line without newline finds a zero in the array. -/
theorem tail_prints_iff (above line : Text) (files : Text → Option Text) (input : Text)
    (hl : line.length = MAX_LINE_LENGTH)
    (hshort : ∀ l ∈ Lines.lines '\n' input, l.length ≤ MAX_LINE_LENGTH - 2) :
    (∀ n < 2 ^ 31, main above line files input ['-' :: Nat.toDigits 10 n] =
      some (lastLines n input, [])) ↔
      (Lines.lines '\n' input).length ≤ MAX_LINES ∧ nul ∉ input ∧ Ends line input := by
  constructor
  · intro h
    have hcount := lines_le_of_prints h
    have hall := h MAX_LINES (by decide)
    rw [main_eq (by decide), lastLines_of_le hcount] at hall
    obtain ⟨lines, hstore, hout⟩ := Option.map_eq_some_iff.mp hall
    obtain ⟨hle, hfree⟩ := store_bounds hstore
    rw [Nat.sub_eq_zero_of_le hle, List.drop_zero] at hout
    have hflat := (Prod.mk.inj hout).1
    have hnul : nul ∉ input := by
      rw [← hflat]
      intro hm
      obtain ⟨l, hl, hm⟩ := List.mem_flatten.mp hm
      exact hfree l hl hm
    refine ⟨hcount, hnul, ?_⟩
    exact ends_of_store hl hshort hnul hcount hstore hflat
  · rintro ⟨hcount, hnul, hend⟩ n hn
    rw [main_eq hn, store_of_ends hl hshort hnul hcount hend]
    rfl

theorem tail_prints_iff_two :
    main [] (List.replicate 512 nul) (fun _ => none) "a\nbc".toList ["-1".toList] =
      some ("bc".toList, []) := by
  refine (tail_prints_iff [] (List.replicate 512 nul) (fun _ => none) "a\nbc".toList
    List.length_replicate ?_).mpr
    ⟨by decide, by decide, ?_⟩ 1 (by decide)
  · decide
  · decide +kernel

/-- A shorter last line is followed by the rest of the one before it, and the lines after the
hundredth are not read. -/
theorem tail_wrong :
    main [] (List.replicate 512 nul) (fun _ => none) "abc\nx".toList ["-1".toList] =
      some ("xbc\n".toList, []) ∧
      lastLines 1 "abc\nx".toList = "x".toList ∧
      main [] (List.replicate 512 nul) (fun _ => none) (List.replicate 100 '\n' ++ "x\n".toList)
        ["-1".toList] =
        some ("\n".toList, []) ∧
      lastLines 1 (List.replicate 100 '\n' ++ "x\n".toList) = "x\n".toList := by
  decide +kernel

end Tail
end Xv6
