import Mathlib.Data.List.TakeWhile
import Mathlib.Data.List.DropRight
import Mathlib.Logic.Function.Iterate
import Xv6.ShellParser

namespace Xv6

inductive Token where
  | word (w : Text)
  | lt
  | gt
  | gtgt
  | bar
  | amp
  | semi
  | lpar
  | rpar
deriving DecidableEq, Repr

/-- The token of a symbol that is not the first of two. -/
def symbolToken (c : Char) : List Token :=
  if c = '<' then [.lt] else if c = '>' then [.gt] else if c = '|' then [.bar]
    else if c = '&' then [.amp]
  else if c = ';' then [.semi] else if c = '(' then [.lpar] else if c = ')' then [.rpar] else []

def flush (w : Text) : List Token := if w = [] then [] else [.word w]

/-- The tokens of a text, character by character, with the word read so far. -/
def lex (w : Text) : Text → List Token
  | [] => flush w
  | c :: s =>
    if isWordChar c then lex (w ++ [c]) s
    else match s with
      | [] => flush w ++ symbolToken c
      | d :: u => if c = '>' ∧ d = '>' then flush w ++ .gtgt :: lex [] u
        else flush w ++ symbolToken c ++ lex [] (d :: u)

def tokens (s : Text) : List Token := lex [] s

inductive Redirs : List Token → List (Redir Text) → Prop
  | nil : Redirs [] []
  | input {w ts rs} (h : Redirs ts rs) : Redirs (.lt :: .word w :: ts) (⟨w, rdonly, 0⟩ :: rs)
  | output {w ts rs} (h : Redirs ts rs) : Redirs (.gt :: .word w :: ts) (⟨w, wronlyCreate, 1⟩ :: rs)
  | append {w ts rs} (h : Redirs ts rs) : Redirs (.gtgt :: .word w :: ts) (⟨w, wronlyCreate, 1⟩ :: rs)

/-- Words, each with the redirections that follow it. -/
inductive Args : List Token → List Text → List (Redir Text) → Prop
  | nil : Args [] [] []
  | cons {w ts rs us ws rs'} (hr : Redirs ts rs) (ha : Args us ws rs') :
    Args (.word w :: (ts ++ us)) (w :: ws) (rs ++ rs')

inductive Nonterminal where
  | line
  | pipe
  | exec

/-- The shell's grammar, with the command that each derivation stands for. -/
inductive Derives : Nonterminal → List Token → Cmd Text → Prop
  | line {ts t} (n : Nat) (h : Derives .pipe ts t) : Derives .line (ts ++ List.replicate n .amp) (Cmd.back^[n] t)
  | seq {ts t us u} (n : Nat) (h : Derives .pipe ts t) (hu : Derives .line us u) :
    Derives .line (ts ++ List.replicate n .amp ++ .semi :: us) (.list (Cmd.back^[n] t) u)
  | one {ts t} (h : Derives .exec ts t) : Derives .pipe ts t
  | pipe {ts t us u} (h : Derives .exec ts t) (hu : Derives .pipe us u) :
    Derives .pipe (ts ++ .bar :: us) (.pipe t u)
  | block {ts t us rs} (h : Derives .line ts t) (hr : Redirs us rs) :
    Derives .exec (.lpar :: (ts ++ .rpar :: us)) (t.wrap rs)
  | simple {ts rs us ws rs'} (hr : Redirs ts rs) (ha : Args us ws rs') (hn : ws.length < MAXARGS) :
    Derives .exec (ts ++ us) ((Cmd.exec ws).wrap (rs ++ rs'))

section Lexing

theorem isWordChar_iff {c : Char} : isWordChar c = true ↔ c ∉ whitespace ∧ c ∉ symbols := by
  simp [isWordChar]

theorem lex_wordChar {c : Char} (w s : Text) (hc : isWordChar c = true) :
    lex w (c :: s) = lex (w ++ [c]) s := by
  cases s <;> simp [lex, hc]

theorem lex_word {v : Text} (w s : Text) (hv : ∀ c ∈ v, isWordChar c = true) :
    lex w (v ++ s) = lex (w ++ v) s := by
  induction v generalizing w with
  | nil => simp
  | cons c v ih =>
    have hc : isWordChar c = true := hv c (by simp)
    rw [List.cons_append, lex_wordChar w _ hc, ih (w ++ [c]) (fun d hd => hv d (by simp [hd]))]
    simp

theorem lex_flush (w : Text) {s : Text} (hs : ∀ c ∈ s.head?, isWordChar c = false) :
    lex w s = flush w ++ tokens s := by
  unfold tokens
  cases s with
  | nil => simp [lex, flush]
  | cons c s =>
    have hc : isWordChar c = false := hs c rfl
    cases s with
    | nil => simp [lex, hc, flush]
    | cons d u =>
      by_cases hgt : c = '>' ∧ d = '>'
      · obtain ⟨rfl, rfl⟩ := hgt
        simp [lex, hc, flush]
      · simp [lex, hc, hgt, flush]

theorem tokens_whitespace {c : Char} {s : Text} (hc : c ∈ whitespace) :
    tokens (c :: s) = tokens s := by
  have hw : isWordChar c = false := by simp [isWordChar, hc]
  have hsym : symbolToken c = [] := by
    have hall : ∀ c ∈ whitespace, symbolToken c = [] := by simp [whitespace, symbolToken]
    exact hall c hc
  have hgt : c ≠ '>' := by
    rintro rfl
    exact absurd hc (by decide)
  unfold tokens
  cases s with
  | nil => simp [lex, hw, flush, hsym]
  | cons d u => simp [lex, hw, flush, hsym, hgt]

theorem tokens_skip (s : Text) : tokens (skip s) = tokens s := by
  induction s with
  | nil => rfl
  | cons c s ih =>
    by_cases hc : c ∈ whitespace
    · have hs : skip (c :: s) = skip s := by simp [skip, hc]
      rw [hs, ih, tokens_whitespace hc]
    · have hs : skip (c :: s) = c :: s := by simp [skip, hc]
      rw [hs]

theorem skip_skip (s : Text) : skip (skip s) = skip s := List.dropWhile_idempotent _ _

theorem skip_head {s : Text} {c : Char} (h : (skip s).head? = some c) : c ∉ whitespace := by
  have hd := List.head?_dropWhile_not (fun c => decide (c ∈ whitespace)) s
  unfold skip at h
  rw [h] at hd
  simpa using hd

/-- The character that gettoken returns for a token. -/
def Token.code : Token → Char
  | .word _ => 'a'
  | .lt => '<'
  | .gt => '>'
  | .gtgt => '+'
  | .bar => '|'
  | .amp => '&'
  | .semi => ';'
  | .lpar => '('
  | .rpar => ')'

/-- The character that peek sees at a symbol. -/
def Token.first : Token → Char
  | .gtgt => '>'
  | k => k.code

/-- The text between two pointers. -/
def Span.word (sp : Span) : Text := sp.q.take (sp.q.length - sp.eq.length)

theorem tokens_nil : tokens [] = [] := rfl

/-- At a symbol the scan returns the code of the first token and stops where the others begin. -/
theorem scan_symbol {c : Char} {s : Text} (hc : c ∈ symbols) :
    ∃ k : Token, tokens (c :: s) = k :: tokens (scan (c :: s)).2 ∧ (scan (c :: s)).1 = k.code ∧
      k.first = c ∧
      ∀ w, k ≠ .word w := by
  have hw : isWordChar c = false := by simp [isWordChar, hc]
  have hcases : c = '<' ∨ c = '|' ∨ c = '>' ∨ c = '&' ∨ c = ';' ∨ c = '(' ∨ c = ')' := by
    simpa [symbols] using hc
  have hplain : c ≠ '>' → tokens (c :: s) = symbolToken c ++ tokens s := by
    intro hgt
    cases s <;> simp [tokens, lex, hw, flush, hgt]
  rcases hcases with rfl | rfl | rfl | rfl | rfl | rfl | rfl
  · exact ⟨.lt, hplain (by decide), rfl, rfl, by simp⟩
  · exact ⟨.bar, hplain (by decide), rfl, rfl, by simp⟩
  · cases s with
    | nil => exact ⟨.gt, rfl, rfl, rfl, by simp⟩
    | cons d u =>
      by_cases hd : d = '>'
      · subst hd
        exact ⟨.gtgt, rfl, rfl, rfl, by simp⟩
      · refine ⟨.gt, ?_, ?_, rfl, by simp⟩
        · simp [tokens, lex, hw, flush, scan, hd, symbolToken]
        · simp [scan, hd, Token.code]
  · exact ⟨.amp, hplain (by decide), rfl, rfl, by simp⟩
  · exact ⟨.semi, hplain (by decide), rfl, rfl, by simp⟩
  · exact ⟨.lpar, hplain (by decide), rfl, rfl, by simp⟩
  · exact ⟨.rpar, hplain (by decide), rfl, rfl, by simp⟩

theorem scan_word {c : Char} {s : Text} (hc : isWordChar c = true) :
    scan (c :: s) = ('a', (c :: s).dropWhile isWordChar) ∧
      tokens (c :: s) = .word ((c :: s).takeWhile isWordChar) :: tokens ((c :: s).dropWhile isWordChar) := by
  have hsym : c ∉ symbols := (isWordChar_iff.mp hc).2
  have hno : c ≠ '<' ∧ c ≠ '|' ∧ c ≠ '>' ∧ c ≠ '&' ∧ c ≠ ';' ∧ c ≠ '(' ∧ c ≠ ')' := by
    simpa [symbols] using hsym
  constructor
  · obtain ⟨h1, h2, h3, h4, h5, h6, h7⟩ := hno
    simp [scan, h1, h2, h3, h4, h5, h6, h7]
  · have hhead : ∀ d ∈ ((c :: s).dropWhile isWordChar).head?, isWordChar d = false := by
      intro d hd
      have h := List.head?_dropWhile_not isWordChar (c :: s)
      rw [Option.mem_def.mp hd] at h
      simpa using h
    have hsplit := List.takeWhile_append_dropWhile (p := isWordChar) (l := c :: s)
    have hne : (c :: s).takeWhile isWordChar ≠ [] := by simp [hc]
    calc tokens (c :: s)
        = lex [] ((c :: s).takeWhile isWordChar ++ (c :: s).dropWhile isWordChar) := by rw [hsplit]; rfl
      _ = lex ((c :: s).takeWhile isWordChar) ((c :: s).dropWhile isWordChar) :=
          lex_word _ _ (fun d hd => List.mem_takeWhile_imp hd)
      _ = flush ((c :: s).takeWhile isWordChar) ++ tokens ((c :: s).dropWhile isWordChar) := lex_flush _ hhead
      _ = _ := by simp only [flush, if_neg hne, List.singleton_append]

/-- A span of the text that holds one word. -/
structure Span.Good (buf : Text) (sp : Span) : Prop where
  suffix : sp.q <:+ buf
  word : sp.q = sp.word ++ sp.eq
  chars : ∀ c ∈ sp.word, isWordChar c = true
  stop : ∀ c ∈ sp.eq.head?, isWordChar c = false

theorem Span.Good.eq_suffix {buf : Text} {sp : Span} (h : sp.Good buf) : sp.eq <:+ buf := by
  have heq : sp.eq <:+ sp.q := ⟨sp.word, h.word.symm⟩
  exact heq.trans h.suffix

theorem Span.Good.word_eq_takeWhile {buf : Text} {sp : Span} (h : sp.Good buf) :
    sp.word = sp.q.takeWhile isWordChar := by
  have hstop : sp.eq.takeWhile isWordChar = [] := by
    cases he : sp.eq with
    | nil => rfl
    | cons c s =>
      have hc := h.stop c (by rw [he]; rfl)
      rw [List.takeWhile_cons_of_neg (by simp [hc])]
  conv_rhs => rw [h.word]
  rw [List.takeWhile_append_of_pos h.chars, hstop, List.append_nil]

theorem Span.word_eq (w eq : Text) : Span.word ⟨w ++ eq, eq⟩ = w := by
  simp [Span.word]

theorem good_scan {buf : Text} {c : Char} {s : Text} (hs : c :: s <:+ buf)
    (hc : isWordChar c = true) :
    Span.Good buf ⟨c :: s, (scan (c :: s)).2⟩ ∧
      Span.word ⟨c :: s, (scan (c :: s)).2⟩ = (c :: s).takeWhile isWordChar := by
  have hsplit := List.takeWhile_append_dropWhile (p := isWordChar) (l := c :: s)
  have hw : Span.word ⟨c :: s, (c :: s).dropWhile isWordChar⟩ = (c :: s).takeWhile isWordChar := by
    have h := Span.word_eq ((c :: s).takeWhile isWordChar) ((c :: s).dropWhile isWordChar)
    rwa [hsplit] at h
  rw [(scan_word hc).1]
  refine ⟨⟨hs, ?_, ?_, ?_⟩, hw⟩
  · rw [hw]
    exact hsplit.symm
  · rw [hw]
    exact fun d hd => List.mem_takeWhile_imp hd
  · intro d hd
    have h := List.head?_dropWhile_not isWordChar (c :: s)
    rw [Option.mem_def.mp hd] at h
    simpa using h

end Lexing

/-- What gettoken returns: 0 at the end of the text, or the next token. -/
inductive Gettoken.At (buf s : Text) (g : Gettoken) : Prop
  | eof (ht : tokens s = []) (hr : g.ret = nul) (hrest : g.rest = [])
  | token (k : Token) (ht : tokens s = k :: tokens g.rest) (hr : g.ret = k.code) (hs : g.rest <:+ buf)
    (hw : ∀ w, k = .word w → g.span.Good buf ∧ g.span.word = w)

theorem skip_suffix (s : Text) : skip s <:+ s := List.dropWhile_suffix _

theorem scan_suffix (s : Text) : (scan s).2 <:+ s := by
  unfold scan
  split
  next => exact List.suffix_refl _
  next c s =>
    split
    next => exact List.suffix_cons _ _
    next =>
      split
      next =>
        split
        next d u =>
          split
          next => exact (List.suffix_cons _ _).trans (List.suffix_cons _ _)
          next => exact List.suffix_cons _ _
        next => exact List.suffix_cons _ _
      next => exact List.dropWhile_suffix _

theorem gettoken_at {buf s : Text} (hs : s <:+ buf) : (gettoken s).At buf s := by
  have hq : skip s <:+ buf := (skip_suffix s).trans hs
  have hrest : (gettoken s).rest <:+ buf := (skip_suffix _).trans ((scan_suffix _).trans hq)
  cases h : skip s with
  | nil =>
    refine .eof ?_ ?_ ?_
    · rw [← tokens_skip, h, tokens_nil]
    · simp [gettoken, h, scan]
    · simp only [gettoken, h]
      rfl
  | cons c t =>
    have hnw : c ∉ whitespace := skip_head (by rw [h]; rfl)
    by_cases hc : c ∈ symbols
    · obtain ⟨k, hk, hcode, _, hword⟩ := scan_symbol (s := t) hc
      refine .token k ?_ ?_ hrest (fun w he => absurd he (hword w))
      · rw [← tokens_skip s, h, hk, ← tokens_skip (scan (c :: t)).2]
        simp only [gettoken, h]
      · simp only [gettoken, h, hcode]
    · have hw : isWordChar c = true := isWordChar_iff.mpr ⟨hnw, hc⟩
      obtain ⟨hscan, htok⟩ := scan_word (s := t) hw
      obtain ⟨hgood, hword⟩ := good_scan (h ▸ hq) hw
      refine .token (.word ((c :: t).takeWhile isWordChar)) ?_ ?_ hrest ?_
      · rw [← tokens_skip s, h, htok, ← tokens_skip ((c :: t).dropWhile isWordChar)]
        simp only [gettoken, h, hscan]
      · simp only [gettoken, h, hscan, Token.code]
      · rintro w ⟨⟩
        simp only [gettoken, h]
        exact ⟨hgood, hword⟩

theorem peek_eq {s : Text} {toks : List Char} (ht : ∀ c ∈ toks, c ∈ symbols) :
    peek s toks = (tokens s).head?.any fun k => k.first ∈ toks := by
  unfold peek
  cases h : skip s with
  | nil =>
    have htok : tokens s = [] := by rw [← tokens_skip, h, tokens_nil]
    simp [htok]
  | cons c t =>
    have hnw : c ∉ whitespace := skip_head (by rw [h]; rfl)
    by_cases hc : c ∈ symbols
    · obtain ⟨k, hk, _, hfirst, _⟩ := scan_symbol (s := t) hc
      have htok : (tokens s).head? = some k := by rw [← tokens_skip, h, hk]; rfl
      simp [htok, hfirst]
    · have hw : isWordChar c = true := isWordChar_iff.mpr ⟨hnw, hc⟩
      obtain ⟨_, htoks⟩ := scan_word (s := t) hw
      have htok : (tokens s).head? = some (.word ((c :: t).takeWhile isWordChar)) := by
        rw [← tokens_skip, h, htoks]
        rfl
      have ha : 'a' ∉ toks := fun hm => absurd (ht _ hm) (by decide)
      have hct : c ∉ toks := fun hm => hc (ht _ hm)
      simp [htok, Token.first, Token.code, ha, hct]

end Xv6
