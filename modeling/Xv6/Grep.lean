import Xv6.GrepMatch
import Xv6.Lines

namespace Xv6

namespace Grep

/-- The size of the buffer, whose last byte is kept for the zero. -/
abbrev BUF : Nat := 1024

/-- Strchr for a newline: the line and what is behind its newline, unless a zero comes first. -/
def strchrLine : Text → Option (Text × Text)
  | [] => none
  | c :: text =>
    if c = '\n' then some ([], text)
    else if c = nul then none
    else (strchrLine text).map fun q => (c :: q.1, q.2)

/-- The inner loop: what is written, and p when no newline is left. -/
def lineLoop (pattern : Text) : Nat → Text → Text × Text
  | 0, p => ([], p)
  | fuel + 1, p =>
    match strchrLine p with
    | none => ([], p)
    | some (line, rest) =>
      let done := lineLoop pattern fuel rest
      (if matchText pattern line then line ++ '\n' :: done.1 else done.1, done.2)

/-- What is kept of the m bytes of the buffer: nothing when p did not move, the bytes from p on
otherwise. -/
def keep (buf p : Text) : Text := if p.length = buf.length then [] else p

/-- The outer loop, with the bytes kept so far and what each further read returns. -/
def grepLoop (pattern : Text) : Text → List Text → Text
  | _, [] => []
  | kept, chunk :: chunks =>
    let buf := kept ++ chunk
    let done := lineLoop pattern buf.length buf
    done.1 ++ grepLoop pattern (keep buf done.2) chunks

def grep (pattern : Text) (chunks : List Text) : Text := grepLoop pattern [] chunks

/-- Each read returns something, and not more than the room it is given behind the bytes kept. -/
def Reads (pattern : Text) : Text → List Text → Prop
  | _, [] => True
  | kept, chunk :: chunks =>
    let buf := kept ++ chunk
    (0 < chunk.length ∧ chunk.length ≤ BUF - kept.length - 1) ∧
      Reads pattern (keep buf (lineLoop pattern buf.length buf).2) chunks

/-- The newline-terminated lines of the stream that match. -/
def matching (pattern stream : Text) : Text :=
  ((Lines.cut '\n' stream).1.filter fun line => matchText pattern line.dropLast).flatten

variable {pattern kept chunk : Text} {chunks : List Text}

theorem strchrLine_line {w t : Text} (hw : '\n' ∉ w) (hnul : nul ∉ w) :
    strchrLine (w ++ '\n' :: t) = some (w, t) := by
  induction w with
  | nil => rfl
  | cons c w ih =>
    simp only [List.mem_cons, not_or] at hw hnul
    rw [List.cons_append, strchrLine, if_neg (Ne.symm hw.1), if_neg (Ne.symm hnul.1),
      ih hw.2 hnul.2]
    rfl

theorem strchrLine_of_notMem {t : Text} (ht : '\n' ∉ t) : strchrLine t = none := by
  induction t with
  | nil => rfl
  | cons c t ih =>
    simp only [List.mem_cons, not_or] at ht
    rw [strchrLine, if_neg (Ne.symm ht.1), ih ht.2]
    split <;> rfl

theorem matching_line {w t : Text} (hw : '\n' ∉ w) :
    matching pattern (w ++ '\n' :: t) =
      if matchText pattern w then w ++ '\n' :: matching pattern t else matching pattern t := by
  unfold matching
  rw [Lines.cut_line hw, List.filter_cons, List.dropLast_concat]
  split <;> simp

theorem matching_of_notMem {t : Text} (ht : '\n' ∉ t) : matching pattern t = [] := by
  unfold matching
  rw [Lines.cut_of_notMem ht]
  rfl

theorem matching_append (t u : Text) :
    matching pattern (t ++ u) =
      matching pattern t ++ matching pattern ((Lines.cut '\n' t).2 ++ u) := by
  unfold matching
  rw [Lines.cut_append, List.filter_append, List.flatten_append]

/-- The inner loop writes the lines that match and stops behind the last newline. -/
theorem lineLoop_eq {p : Text} (hnul : nul ∉ p) {fuel : Nat} (hf : p.length ≤ fuel) :
    lineLoop pattern fuel p = (matching pattern p, (Lines.cut '\n' p).2) := by
  induction fuel generalizing p with
  | zero =>
    obtain rfl : p = [] := List.eq_nil_of_length_eq_zero (by omega)
    rfl
  | succ fuel ih =>
    rcases Lines.line_or_notMem '\n' p with hp | ⟨w, t, rfl, hw⟩
    · rw [lineLoop, strchrLine_of_notMem hp, matching_of_notMem hp, Lines.cut_of_notMem hp]
    · simp only [List.mem_append, List.mem_cons, not_or] at hnul
      simp only [List.length_append, List.length_cons] at hf
      simp only [lineLoop, strchrLine_line hw hnul.1, ih hnul.2.2 (by omega : t.length ≤ fuel),
        matching_line hw, Lines.cut_line hw]

theorem lineLoop_rest {p : Text} (hnul : nul ∉ p) :
    (lineLoop pattern p.length p).2 = (Lines.cut '\n' p).2 := by
  rw [lineLoop_eq hnul le_rfl]

theorem keep_of_mem {buf : Text} (h : '\n' ∈ buf) :
    keep buf (Lines.cut '\n' buf).2 = (Lines.cut '\n' buf).2 := by
  have hlt := Lines.length_rest_lt h
  exact if_neg (by omega)

theorem keep_of_notMem {buf : Text} (h : '\n' ∉ buf) : keep buf (Lines.cut '\n' buf).2 = [] := by
  rw [Lines.cut_of_notMem h]
  exact if_pos rfl

theorem notMem_rest_append {buf t : Text} (h : nul ∉ buf ++ t) :
    nul ∉ (Lines.cut '\n' buf).2 ++ t := by
  intro hm
  rcases List.mem_append.mp hm with hm | hm
  · exact h (List.mem_append_left _ (Lines.rest_subset _ _ hm))
  · exact h (List.mem_append_right _ hm)

theorem grepLoop_of_mem (hnul : nul ∉ kept ++ chunk) (h : '\n' ∈ kept ++ chunk) :
    grepLoop pattern kept (chunk :: chunks) =
      matching pattern (kept ++ chunk) ++ grepLoop pattern (Lines.cut '\n' (kept ++ chunk)).2 chunks := by
  rw [grepLoop, lineLoop_eq hnul le_rfl, keep_of_mem h]

/-- A round that sees none loses the whole buffer. -/
theorem grepLoop_of_notMem (hnul : nul ∉ kept ++ chunk) (h : '\n' ∉ kept ++ chunk) :
    grepLoop pattern kept (chunk :: chunks) = grepLoop pattern [] chunks := by
  rw [grepLoop, lineLoop_eq hnul le_rfl, keep_of_notMem h, matching_of_notMem h, List.nil_append]

theorem matchText_nil (text : Text) : matchText [] text = true := by
  cases text with
  | nil => simp [matchText, matchAnywhere, matchhere]
  | cons d text => simp [matchText, matchAnywhere, matchhere]

theorem matching_nil_lt {buf t : Text} (hb : '\n' ∉ buf) (hlen : 0 < buf.length) (ht : '\n' ∈ t) :
    (matching [] t).length < (matching [] (buf ++ t)).length := by
  rcases Lines.line_or_notMem '\n' t with hn | ⟨w, u, rfl, hw⟩
  · exact absurd ht hn
  · have hbw : '\n' ∉ buf ++ w := by simp [hb, hw]
    rw [← List.append_assoc, matching_line hw, matching_line hbw, if_pos (matchText_nil w),
      if_pos (matchText_nil (buf ++ w))]
    simp only [List.length_append]
    omega

theorem matching_nil_le {buf t : Text} (hb : '\n' ∉ buf) :
    (matching [] t).length ≤ (matching [] (buf ++ t)).length := by
  by_cases hlen : 0 < buf.length
  · by_cases ht : '\n' ∈ t
    · exact Nat.le_of_lt (matching_nil_lt hb hlen ht)
    · rw [matching_of_notMem ht]
      exact Nat.zero_le _
  · obtain rfl : buf = [] := List.eq_nil_of_length_eq_zero (by omega)
    exact le_rfl

theorem grepLoop_nil_le (hnul : nul ∉ kept ++ chunks.flatten) (hk : '\n' ∉ kept) :
    (grepLoop [] kept chunks).length ≤ (matching [] (kept ++ chunks.flatten)).length := by
  induction chunks generalizing kept with
  | nil => exact Nat.zero_le _
  | cons chunk chunks ih =>
    rw [List.flatten_cons, ← List.append_assoc] at hnul ⊢
    obtain ⟨hbuf, hrest⟩ := not_or.mp (mt List.mem_append.mpr hnul)
    by_cases h : '\n' ∈ kept ++ chunk
    · rw [grepLoop_of_mem hbuf h, matching_append (kept ++ chunk), List.length_append, List.length_append]
      exact Nat.add_le_add_left (ih (notMem_rest_append hnul) (Lines.notMem_rest _ _)) _
    · have hle := ih (show nul ∉ [] ++ chunks.flatten from hrest) List.not_mem_nil
      rw [grepLoop_of_notMem hbuf h]
      exact hle.trans (matching_nil_le h)

theorem grepLoop_quiet (hnul : nul ∉ kept ++ chunks.flatten) (h : '\n' ∉ kept ++ chunks.flatten) :
    grepLoop pattern kept chunks = [] := by
  induction chunks generalizing kept with
  | nil => rfl
  | cons chunk chunks ih =>
    simp only [List.flatten_cons, List.mem_append, not_or] at hnul h
    rw [grepLoop_of_notMem (by simp [hnul]) (by simp [h])]
    exact ih (by simpa using hnul.2.2) (by simpa using h.2.2)

theorem grepLoop_iff (hnul : nul ∉ kept ++ chunks.flatten) (hk : '\n' ∉ kept)
    (hlen : ∀ c ∈ chunks, 0 < c.length) :
    (∀ pattern, grepLoop pattern kept chunks = matching pattern (kept ++ chunks.flatten)) ↔
      chunks.Pairwise fun c d => '\n' ∈ d → '\n' ∈ c := by
  induction chunks generalizing kept with
  | nil => simp [grepLoop, matching_of_notMem hk]
  | cons chunk chunks ih =>
    rw [List.flatten_cons, ← List.append_assoc] at hnul ⊢
    obtain ⟨hbuf, hrest⟩ := not_or.mp (mt List.mem_append.mpr hnul)
    have hpos := hlen chunk List.mem_cons_self
    rw [List.pairwise_cons]
    by_cases h : '\n' ∈ chunk
    · rw [← ih (notMem_rest_append hnul) (Lines.notMem_rest _ _) fun c hc =>
        hlen c (List.mem_cons_of_mem _ hc)]
      simp only [grepLoop_of_mem hbuf (List.mem_append_right _ h), matching_append (kept ++ chunk),
        List.append_cancel_left_eq]
      exact ⟨fun he => ⟨fun _ _ _ => h, he⟩, fun he => he.2⟩
    · have hbn : '\n' ∉ kept ++ chunk := by simp [hk, h]
      by_cases hr : '\n' ∈ chunks.flatten
      · refine iff_of_false (fun he => ?_) fun he => ?_
        · have hle := grepLoop_nil_le (show nul ∉ [] ++ chunks.flatten from hrest) List.not_mem_nil
          have hlt := matching_nil_lt hbn (by rw [List.length_append]; omega) hr
          rw [← he [], grepLoop_of_notMem hbuf hbn] at hlt
          exact absurd hle (Nat.not_le.mpr hlt)
        · obtain ⟨d, hd, hmem⟩ := List.mem_flatten.mp hr
          exact h (he.1 d hd hmem)
      · have hno : '\n' ∉ kept ++ chunk ++ chunks.flatten := by
          rw [List.mem_append, not_or]
          exact ⟨hbn, hr⟩
        have hquiet : ∀ pattern, grepLoop pattern [] chunks = [] := fun pattern => grepLoop_quiet hrest hr
        refine iff_of_true (fun pattern => ?_) ⟨fun d hd hm => absurd (List.mem_flatten_of_mem hd hm) hr, ?_⟩
        · rw [grepLoop_of_notMem hbuf hbn, hquiet, matching_of_notMem hno]
        · refine (ih (show nul ∉ [] ++ chunks.flatten from hrest) List.not_mem_nil fun c hc =>
            hlen c (List.mem_cons_of_mem _ hc)).mp fun pattern => ?_
          rw [hquiet, List.nil_append, matching_of_notMem hr]

theorem Reads.pos (h : Reads pattern kept chunks) : ∀ c ∈ chunks, 0 < c.length := by
  induction chunks generalizing kept with
  | nil => exact fun c hc => absurd hc List.not_mem_nil
  | cons chunk chunks ih =>
    intro c hc
    rcases List.mem_cons.mp hc with rfl | hc
    · exact h.1.1
    · exact ih h.2 c hc

/-- The lines come out right for every pattern just when no read without a newline comes before one
with a newline. -/
theorem grep_lines_iff (chunks : List Text) (hreads : ∀ pattern, Reads pattern [] chunks)
    (hnul : nul ∉ chunks.flatten) :
    (∀ pattern, grep pattern chunks = matching pattern chunks.flatten) ↔
      chunks.Pairwise fun c d => '\n' ∈ d → '\n' ∈ c :=
  grepLoop_iff hnul List.not_mem_nil (hreads []).pos

theorem grep_lines_iff_carried :
    (∀ pattern, grep pattern ["ab\nc".toList, "d\n".toList] = matching pattern "ab\ncd\n".toList) ↔
      ["ab\nc".toList, "d\n".toList].Pairwise fun c d => '\n' ∈ d → '\n' ∈ c := by
  refine grep_lines_iff ["ab\nc".toList, "d\n".toList] (fun pattern => ⟨by decide, ?_⟩) (by decide)
  rw [lineLoop_rest (by decide)]
  exact ⟨by decide, trivial⟩

/-- A line that comes in two reads is lost. -/
theorem grep_loses_line :
    (∀ pattern, Reads pattern [] ["a".toList, "b\n".toList]) ∧
      grep "a".toList ["a".toList, "b\n".toList] = [] ∧
      matching "a".toList "ab\n".toList = "ab\n".toList := by
  refine ⟨fun pattern => ⟨by decide, ?_⟩, ?_, ?_⟩
  · rw [lineLoop_rest (by decide)]
    exact ⟨by decide, trivial⟩
  · simp [grep, grepLoop, lineLoop, strchrLine, keep, nul, matchText, matchAnywhere, matchhere,
      matchesChar]
  · simp [matching, Lines.cut, matchText, matchAnywhere, matchhere, matchesChar]

end Grep
end Xv6
