import Xv6.ShellParsing

namespace Xv6

/-- The store *eq = 0; at the end of the text there is a zero already. -/
def Span.terminate (buf : Text) (sp : Span) : Text := buf.set (buf.length - sp.eq.length) nul

/-- The C string at q in the buffer as it is now. -/
def Span.read (buf : Text) (sp : Span) : Text := cstr (buf.drop (buf.length - sp.q.length))

/-- nulterminate with the one buffer that all strings of a command lie in. -/
def Cmd.nulterminate : Cmd Span → Text → Text
  | .exec argv, buf => argv.foldl Span.terminate buf
  | .redir cmd r, buf => Span.terminate (cmd.nulterminate buf) r.file
  | .pipe left right, buf => right.nulterminate (left.nulterminate buf)
  | .list left right, buf => right.nulterminate (left.nulterminate buf)
  | .back cmd, buf => cmd.nulterminate buf

/-- parsecmd with its pointers: the command and the buffer as nulterminate leaves it. -/
def parsecmdIn (s : Text) : ParseResult (Cmd Span × Text) :=
  (parseline (4 * (cstr s).length + 4) (cstr s)).bind fun cmd rest =>
    if skip rest = [] then .ok (cmd, cmd.nulterminate (cstr s)) [] else .panic "syntax"

section Zeros

variable {buf : Text} {ps : List Nat} {p : Nat}

theorem length_zeroed (ps : List Nat) (buf : Text) : (zeroed ps buf).length = buf.length := by
  induction buf with
  | nil => rfl
  | cons c s ih => simp [zeroed, ih]

theorem zeroed_cons_of_lt (h : buf.length < p) : zeroed (p :: ps) buf = zeroed ps buf := by
  induction buf with
  | nil => rfl
  | cons c s ih =>
    have hne : (c :: s).length ≠ p := Nat.ne_of_lt h
    rw [zeroed, zeroed, ih (Nat.lt_of_succ_lt h)]
    simp only [List.mem_cons, hne, false_or]

theorem set_zeroed (hp : p ≤ buf.length) :
    (zeroed ps buf).set (buf.length - p) nul = zeroed (p :: ps) buf := by
  induction buf with
  | nil => rfl
  | cons c s ih =>
    by_cases hfirst : p = s.length + 1
    · subst hfirst
      have hrest : zeroed ((s.length + 1) :: ps) s = zeroed ps s := zeroed_cons_of_lt (Nat.lt_succ_self _)
      rw [List.length_cons, Nat.sub_self, zeroed, zeroed, List.set_cons_zero, hrest, if_pos (by simp)]
    · have hle : p ≤ s.length := by
        rw [List.length_cons] at hp
        omega
      have hne : (c :: s).length ≠ p := fun he => hfirst he.symm
      rw [List.length_cons, Nat.sub_add_comm hle, zeroed, zeroed, List.set_cons_succ, ih hle]
      simp only [List.mem_cons, hne, false_or]

theorem drop_zeroed (ps : List Nat) (u q : Text) :
    (zeroed ps (u ++ q)).drop u.length = zeroed ps q := by
  induction u with
  | nil => rfl
  | cons c u ih => exact ih

/-- The places a and b of zeros: those that were there, and the ends of these strings. -/
def Terminated (spans : List Span) (a b : List Nat) : Prop :=
  ∀ p, p ∈ b ↔ p ∈ a ∨ ∃ sp ∈ spans, sp.eq.length = p

theorem Terminated.trans {l l' : List Span} {a b c : List Nat} (h : Terminated l a b)
    (h' : Terminated l' b c) :
    Terminated (l ++ l') a c := by
  intro p
  rw [h' p, h p]
  simp only [List.mem_append, or_and_right, exists_or, or_assoc]

theorem terminate_zeroed {sp : Span} (hsp : sp.eq.length ≤ buf.length) (ps : List Nat) :
    ∃ ps', sp.terminate (zeroed ps buf) = zeroed ps' buf ∧ Terminated [sp] ps ps' := by
  refine ⟨sp.eq.length :: ps, ?_, ?_⟩
  · rw [Span.terminate, length_zeroed, set_zeroed hsp]
  · intro p
    simp only [List.mem_cons, List.not_mem_nil, or_false, exists_eq_left]
    rw [or_comm, eq_comm]

theorem foldl_terminate_zeroed {l : List Span} (hl : ∀ sp ∈ l, sp.eq.length ≤ buf.length)
    (ps : List Nat) :
    ∃ ps', l.foldl Span.terminate (zeroed ps buf) = zeroed ps' buf ∧ Terminated l ps ps' := by
  induction l generalizing ps with
  | nil => exact ⟨ps, rfl, fun p => by simp⟩
  | cons sp l ih =>
    obtain ⟨qs, hq, hqs⟩ := terminate_zeroed (hl sp List.mem_cons_self) ps
    obtain ⟨rs, hr, hrs⟩ := ih (fun sp' h => hl sp' (List.mem_cons_of_mem _ h)) qs
    refine ⟨rs, ?_, hqs.trans hrs⟩
    rw [List.foldl_cons, hq, hr]

/-- The tree is passed node by node, in the order of its strings. -/
theorem Cmd.nulterminate_eq_foldl (cmd : Cmd Span) (buf : Text) :
    cmd.nulterminate buf = cmd.spans.foldl Span.terminate buf := by
  induction cmd generalizing buf with
  | exec argv => rfl
  | redir cmd r ih =>
    rw [Cmd.nulterminate, ih, Cmd.spans, List.foldl_append, List.foldl_cons, List.foldl_nil]
  | pipe left right ihl ihr => rw [Cmd.nulterminate, ihl, ihr, Cmd.spans, List.foldl_append]
  | list left right ihl ihr => rw [Cmd.nulterminate, ihl, ihr, Cmd.spans, List.foldl_append]
  | back cmd ih => exact ih buf

theorem zeroed_nil (buf : Text) : zeroed [] buf = buf := by
  induction buf with
  | nil => rfl
  | cons c s ih => simp [zeroed, ih]

/-- Once all strings are terminated, each of them reads as the word it was. -/
theorem Cmd.read_nulterminate {cmd : Cmd Span} (hn : ∀ c ∈ buf, c ≠ nul)
    (hg : ∀ sp ∈ cmd.spans, sp.Good buf) {sp : Span}
    (hsp : sp ∈ cmd.spans) : sp.read (cmd.nulterminate buf) = sp.word := by
  obtain ⟨ps, hps, hends⟩ :=
    foldl_terminate_zeroed (l := cmd.spans) (fun sp' h => (hg sp' h).eq_suffix.length_le) []
  rw [zeroed_nil] at hps
  have hgood := hg sp hsp
  obtain ⟨u, hu⟩ := hgood.suffix
  have hpos : buf.length - sp.q.length = u.length := by
    rw [← hu, List.length_append, Nat.add_sub_cancel]
  have hdrop : (zeroed ps buf).drop (buf.length - sp.q.length) = zeroed ps sp.q := by
    rw [hpos, ← hu, drop_zeroed]
  have hstr := cstr_zeroed ps hn (hgood.word ▸ hgood.suffix) hgood.chars
    ((hends _).mpr (.inr ⟨sp, hsp, rfl⟩)) ?_
  · rw [Span.read, Cmd.nulterminate_eq_foldl, hps, length_zeroed, hdrop]
    rwa [← hgood.word] at hstr
  · intro p hp
    obtain ⟨sp', hsp', rfl⟩ := ((hends p).mp hp).resolve_left (List.not_mem_nil)
    exact ⟨sp'.eq, (hg sp' hsp').eq_suffix, rfl, (hg sp' hsp').stop⟩

end Zeros

/-- The strings of parsecmd are those that its buffer holds in the end. -/
theorem parsecmd_eq_read (s : Text) :
    parsecmd s = (parsecmdIn s).bind fun (cmd, buf) rest =>
      .ok (cmd.map fun sp => sp.read buf) rest := by
  unfold parsecmd parsecmdIn
  cases h : parseline (4 * (cstr s).length + 4) (cstr s) with
  | ok cmd rest =>
    by_cases hr : skip rest = []
    · obtain ⟨_, hgood⟩ := parseline_accepts h hr
      simp only [ParseResult.bind, if_pos hr]
      rw [nulterminate_eq (cstr_ne_nul s) hgood]
      congr 1
      exact Cmd.map_congr fun sp hsp => (Cmd.read_nulterminate (cstr_ne_nul s) hgood hsp).symm
    · simp only [ParseResult.bind, if_neg hr]
  | panic msg => rfl
  | overrun => rfl
  | spent => rfl

/-- Whatever parsecmd accepts, nulterminate makes each pointer of the tree a string that is the word
it was parsed from: the tree with these words is the one that the tokens derive. -/
theorem nulterminate_yields_tokens (s : Text) (cmd : Cmd Span) (buf rest : Text)
    (h : parsecmdIn s = .ok (cmd, buf) rest) :
    Derives .line (tokens (cstr s)) (cmd.map fun sp => sp.read buf) ∧
      ∀ sp ∈ cmd.spans, sp.q <:+ cstr s ∧ sp.read buf = sp.q.takeWhile isWordChar ∧
        sp.q = sp.read buf ++ sp.eq := by
  unfold parsecmdIn at h
  cases hp : parseline (4 * (cstr s).length + 4) (cstr s) with
  | ok cmd' rest' =>
    rw [hp] at h
    simp only [ParseResult.bind] at h
    split at h
    next hr =>
      obtain ⟨hderives, hgood⟩ := parseline_accepts hp hr
      cases h
      have hread := fun sp (hsp : sp ∈ cmd.spans) => Cmd.read_nulterminate (cstr_ne_nul s) hgood hsp
      refine ⟨?_, fun sp hsp => ?_⟩
      · rwa [Cmd.map_congr hread]
      · rw [hread sp hsp]
        have hg := hgood sp hsp
        exact ⟨hg.suffix, hg.word_eq_takeWhile, hg.word⟩
    next => cases h
  | panic msg => rw [hp] at h; cases h
  | overrun => rw [hp] at h; cases h
  | spent => rw [hp] at h; cases h

theorem nulterminate_yields_tokens_redir :
    Derives .line (tokens "a>b".toList)
      (.redir (.exec ["a".toList]) ⟨"b".toList, wronlyCreate, 1⟩) :=
  (nulterminate_yields_tokens "a>b".toList
    (.redir (.exec [⟨"a>b".toList, ">b".toList⟩]) ⟨⟨"b".toList, []⟩, wronlyCreate, 1⟩)
    ['a', nul, 'b'] [] (by decide +kernel)).1

end Xv6
