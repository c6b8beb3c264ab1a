import Xv6.ShellGrammar

namespace Xv6

section Commands

variable {α β : Type}

theorem Cmd.map_wrap (f : α → β) (cmd : Cmd α) (rs : List (Redir α)) :
    (cmd.wrap rs).map f = (cmd.map f).wrap (rs.map (Redir.map f)) := by
  induction rs generalizing cmd with
  | nil => rfl
  | cons r rs ih => exact ih (cmd.redir r)

theorem Cmd.spans_wrap (cmd : Cmd α) (rs : List (Redir α)) :
    (cmd.wrap rs).spans = cmd.spans ++ rs.map Redir.file := by
  induction rs generalizing cmd with
  | nil => simp [Cmd.wrap]
  | cons r rs ih =>
    have h := ih (cmd.redir r)
    simpa [Cmd.wrap, Cmd.spans] using h

theorem Cmd.map_backs (f : α → β) (n : Nat) (cmd : Cmd α) :
    (Cmd.back^[n] cmd).map f = Cmd.back^[n] (cmd.map f) := by
  induction n generalizing cmd with
  | zero => rfl
  | succ n ih => exact ih cmd.back

theorem Cmd.spans_backs (n : Nat) (cmd : Cmd α) : (Cmd.back^[n] cmd).spans = cmd.spans := by
  induction n generalizing cmd with
  | zero => rfl
  | succ n ih => exact ih cmd.back

theorem Cmd.map_congr {f g : α → β} {cmd : Cmd α} (h : ∀ x ∈ cmd.spans, f x = g x) :
    cmd.map f = cmd.map g := by
  induction cmd with
  | exec argv => exact congrArg Cmd.exec (List.map_congr_left h)
  | redir cmd r ih =>
    have hr : f r.file = g r.file := h _ (by simp [Cmd.spans])
    have hc := ih (fun x hx => h x (by simp [Cmd.spans, hx]))
    simp [Cmd.map, Redir.map, hr, hc]
  | pipe left right ihl ihr =>
    have hl := ihl (fun x hx => h x (by simp [Cmd.spans, hx]))
    have hr := ihr (fun x hx => h x (by simp [Cmd.spans, hx]))
    simp [Cmd.map, hl, hr]
  | list left right ihl ihr =>
    have hl := ihl (fun x hx => h x (by simp [Cmd.spans, hx]))
    have hr := ihr (fun x hx => h x (by simp [Cmd.spans, hx]))
    simp [Cmd.map, hl, hr]
  | back cmd ih => exact congrArg Cmd.back (ih h)

end Commands

section Terminating

variable {buf : Text}

theorem suffix_eq_of_length {s t : Text} (hs : s <:+ buf) (ht : t <:+ buf)
    (h : s.length = t.length) : s = t :=
  (List.suffix_of_suffix_length_le hs ht (Nat.le_of_eq h)).eq_of_length h

theorem cstr_zeroed (places : List Nat) {w eq : Text} (hn : ∀ c ∈ buf, c ≠ nul)
    (hs : w ++ eq <:+ buf) (hw : ∀ c ∈ w, isWordChar c = true) (heq : eq.length ∈ places)
    (hp : ∀ p ∈ places, ∃ e, e <:+ buf ∧ e.length = p ∧ ∀ c ∈ e.head?, isWordChar c = false) :
    cstr (zeroed places (w ++ eq)) = w := by
  induction w with
  | nil =>
    cases eq with
    | nil => rfl
    | cons d u =>
      have hfirst : zeroed places (d :: u) = nul :: zeroed places u := by
        simp only [zeroed, if_pos heq]
      rw [List.nil_append, hfirst]
      simp [cstr]
  | cons c w ih =>
    have hin : (c :: (w ++ eq)).length ∉ places := by
      intro hm
      obtain ⟨e, he, hlen, hhead⟩ := hp _ hm
      have hsame : e = c :: (w ++ eq) := suffix_eq_of_length he hs hlen
      have hc := hhead c (by rw [hsame]; rfl)
      rw [hw c (by simp)] at hc
      contradiction
    have hc : c ≠ nul := hn c (hs.subset (by simp))
    have hrest := ih ((List.suffix_cons _ _).trans hs) (fun d hd => hw d (by simp [hd]))
    have hstep : zeroed places (c :: w ++ eq) = c :: zeroed places (w ++ eq) := by
      simp only [List.cons_append, zeroed, if_neg hin]
    rw [hstep]
    unfold cstr at hrest ⊢
    rw [List.takeWhile_cons_of_pos (by simpa using hc), hrest]

theorem nulterminate_eq {cmd : Cmd Span} (hn : ∀ c ∈ buf, c ≠ nul)
    (hg : ∀ sp ∈ cmd.spans, sp.Good buf) :
    nulterminate cmd = cmd.map Span.word := by
  apply Cmd.map_congr
  intro sp hsp
  have hgood := hg sp hsp
  have hq := hgood.word
  have hstr := cstr_zeroed (cmd.spans.map fun sp => sp.eq.length) hn (hq ▸ hgood.suffix) hgood.chars
    (List.mem_map_of_mem hsp) ?_
  · rwa [← hq] at hstr
  · intro p hp
    obtain ⟨sp', hsp', rfl⟩ := List.mem_map.mp hp
    exact ⟨sp'.eq, (hg sp' hsp').eq_suffix, rfl, (hg sp' hsp').stop⟩

end Terminating

/-- What a run of the parser comes to: a result with Q, a panic, or, if short holds, too few calls.
-/
def ParseResult.Post {α : Type} (r : ParseResult α) (Q : α → Text → Prop) (short : Prop) : Prop :=
  match r with
  | .ok a s => Q a s
  | .panic _ => True
  | .overrun => False
  | .spent => short

theorem ParseResult.Post.bind {α β : Type} {r : ParseResult α} {k : α → Text → ParseResult β}
    {Q : α → Text → Prop} {R : β → Text → Prop} {short short' : Prop} (h : r.Post Q short)
    (hs : short → short')
    (hk : ∀ a s, Q a s → (k a s).Post R short') : (r.bind k).Post R short' := by
  cases r with
  | ok a s => exact hk a s h
  | panic msg => trivial
  | overrun => exact h.elim
  | spent => exact hs h

theorem ParseResult.Post.mono {α : Type} {r : ParseResult α} {Q R : α → Text → Prop}
    {short short' : Prop} (h : r.Post Q short) (hs : short → short')
    (hk : ∀ a s, Q a s → R a s) : r.Post R short' := by
  cases r with
  | ok a s => exact hk a s h
  | panic msg => trivial
  | overrun => exact h.elim
  | spent => exact hs h

/-- The parser has read some tokens from s on and stands at s'. -/
structure Reads (buf s : Text) (ts : List Token) (s' : Text) : Prop where
  suffix : s' <:+ buf
  split : tokens s = ts ++ tokens s'

section Sound

variable {buf s : Text}

theorem Reads.skip (hs : s <:+ buf) : Reads buf s [] (skip s) :=
  ⟨(skip_suffix s).trans hs, (tokens_skip s).symm⟩

theorem Reads.trans {ts us : List Token} {s1 s2 : Text} (h1 : Reads buf s ts s1)
    (h2 : Reads buf s1 us s2) :
    Reads buf s (ts ++ us) s2 :=
  ⟨h2.suffix, by rw [h1.split, h2.split, List.append_assoc]⟩

theorem Reads.length_le {ts : List Token} {s' : Text} (h : Reads buf s ts s') :
    ts.length + (tokens s').length = (tokens s).length := by
  rw [h.split, List.length_append]

theorem gettoken_skip (hs : s <:+ buf) : (gettoken (skip s)).At buf s := by
  have h := gettoken_at ((skip_suffix s).trans hs)
  rcases h with ⟨ht, hr, hrest⟩ | ⟨k, ht, hr, hsuf, hw⟩
  · exact .eof (tokens_skip s ▸ ht) hr hrest
  · exact .token k (tokens_skip s ▸ ht) hr hsuf hw

theorem peek_reads {toks : List Char} (hs : s <:+ buf) (ht : ∀ c ∈ toks, c ∈ symbols)
    (h : peek s toks = true) :
    ∃ k : Token, k.first ∈ toks ∧ (gettoken (skip s)).ret = k.code ∧
      Reads buf s [k] (gettoken (skip s)).rest := by
  rw [peek_eq ht] at h
  rcases gettoken_skip hs with ⟨hnil, _, _⟩ | ⟨k, hk, hr, hsuf, _⟩
  · simp [hnil] at h
  · rw [hk] at h
    exact ⟨k, by simpa using h, hr, hsuf, hk⟩

/-- The symbols that begin no other token. -/
def Token.isPlain (k : Token) : Bool := k ∈ [Token.bar, .amp, .semi, .lpar, .rpar]

theorem Token.eq_of_first {k k0 : Token} (h0 : k0.isPlain) (h : k.first = k0.code) : k = k0 := by
  have hcases : k0 = .bar ∨ k0 = .amp ∨ k0 = .semi ∨ k0 = .lpar ∨ k0 = .rpar := by
    simpa [Token.isPlain] using h0
  rcases hcases with rfl | rfl | rfl | rfl | rfl <;> cases k <;> simp_all [Token.first, Token.code]

theorem peek_reads_one {k : Token} (hk : k.isPlain) (hs : s <:+ buf) (h : peek s [k.code] = true) :
    Reads buf s [k] (gettoken (skip s)).rest := by
  have hsym : ∀ c ∈ [k.code], c ∈ symbols := by
    revert hk
    cases k <;> simp [Token.isPlain, Token.code, symbols]
  obtain ⟨k', hfirst, _, hreads⟩ := peek_reads hs hsym h
  have he : k' = k := Token.eq_of_first hk (List.mem_singleton.mp hfirst)
  exact he ▸ hreads

theorem Token.word_of_code {k : Token} (h : k.code = 'a') : ∃ w, k = .word w := by
  cases k with
  | word w => exact ⟨w, rfl⟩
  | _ => exact absurd h (by decide)

theorem Token.code_ne_nul {k : Token} : k.code ≠ nul := by
  cases k <;> simp [Token.code, nul]

theorem redirs_cons {k : Token} {ts : List Token} {rs : List (Redir Text)} {w : Text}
    (hk : k.first ∈ ['<', '>'])
    (h : Redirs ts rs) : Redirs (k :: .word w :: ts) (redirOf k.code w :: rs) := by
  cases k with
  | lt => exact .input h
  | gt => exact .output h
  | gtgt => exact .append h
  | _ => simp [Token.first, Token.code] at hk

theorem parseredirs_sound (n : Nat) (hs : s <:+ buf) :
    (parseredirs n s).Post (fun rs s' =>
      ∃ ts, Reads buf s ts s' ∧ Redirs ts (rs.map (Redir.map Span.word)) ∧
      ∀ r ∈ rs, r.file.Good buf) (n ≤ (tokens s).length) := by
  induction n generalizing s with
  | zero => exact Nat.zero_le _
  | succ n ih =>
    unfold parseredirs
    split
    next hp =>
      obtain ⟨k, hfirst, hcode, hk⟩ := peek_reads hs (by simp [symbols]) hp
      dsimp only
      split
      next => trivial
      next hret =>
        rcases gettoken_at hk.suffix with ⟨_, hr, _⟩ | ⟨k', hk', hr, hsuf, hw⟩
        · exact absurd (hr.symm.trans (not_not.mp hret)) (by decide)
        obtain ⟨w, rfl⟩ := Token.word_of_code (hr.symm.trans (not_not.mp hret))
        obtain ⟨hgood, hword⟩ := hw w rfl
        have hfile : Reads buf s [k, .word w] (gettoken (gettoken (skip s)).rest).rest :=
          hk.trans ⟨hsuf, hk'⟩
        have hlen := hfile.length_le
        refine (ih hsuf).bind (fun hshort => ?_) ?_
        · simp only [List.length_cons, List.length_nil] at hlen
          omega
        · rintro rs s' ⟨ts, hreads, hredirs, hg⟩
          refine ⟨_, hfile.trans hreads, ?_, ?_⟩
          · have hr' : Redir.map Span.word (redirOf (gettoken (skip s)).ret (gettoken (gettoken (skip s)).rest).span) =
                redirOf k.code w := by
              rw [hcode, ← hword]
              unfold redirOf Redir.map
              split <;> rfl
            rw [List.map_cons, hr']
            exact redirs_cons hfirst hredirs
          · intro r hr
            rcases List.mem_cons.mp hr with rfl | hr
            · unfold redirOf
              split <;> exact hgood
            · exact hg r hr
    next => exact ⟨[], Reads.skip hs, .nil, by simp⟩

/-- The loop of parseexec adds words to the arguments it has, and redirections to those it has. -/
def ArgsRead (buf s : Text) (argv : List Span) (rs : List (Redir Span)) (cmd : Cmd Span)
    (s' : Text) : Prop :=
  ∃ ts ws rs', Reads buf s ts s' ∧ Args ts ws rs' ∧ argv.length + ws.length < MAXARGS ∧
    (∀ sp ∈ cmd.spans, sp.Good buf) ∧
    cmd.map Span.word = (Cmd.exec (argv.map Span.word ++ ws)).wrap
      (rs.map (Redir.map Span.word) ++ rs')

section Args

variable {argv : List Span} {rs : List (Redir Span)}

theorem endargs_sound {s' : Text} {short : Prop} (hs : Reads buf s [] s')
    (hlen : argv.length < MAXARGS) (ha : ∀ sp ∈ argv, sp.Good buf)
    (hr : ∀ r ∈ rs, r.file.Good buf) :
    (endargs argv rs s').Post (ArgsRead buf s argv rs) short := by
  unfold endargs
  rw [if_pos hlen]
  refine ⟨[], [], [], hs, .nil, by simpa using hlen, ?_, by simp [Cmd.map_wrap, Cmd.map]⟩
  intro sp hsp
  rw [Cmd.spans_wrap] at hsp
  rcases List.mem_append.mp hsp with hsp | hsp
  · exact ha sp hsp
  · obtain ⟨r, hm, rfl⟩ := List.mem_map.mp hsp
    exact hr r hm

theorem parseargs_sound (n : Nat) (hs : s <:+ buf) (hlen : argv.length < MAXARGS)
    (ha : ∀ sp ∈ argv, sp.Good buf) (hr : ∀ r ∈ rs, r.file.Good buf) :
    (parseargs n argv rs s).Post (ArgsRead buf s argv rs) (n ≤ (tokens s).length) := by
  induction n generalizing argv rs s with
  | zero => exact Nat.zero_le _
  | succ n ih =>
    unfold parseargs
    split
    next => exact endargs_sound (Reads.skip hs) hlen ha hr
    next =>
      dsimp only
      rcases gettoken_skip hs with ⟨hnil, hret, hrest⟩ | ⟨k, hk, hret, hsuf, hw⟩
      · rw [if_pos hret, hrest]
        exact endargs_sound ⟨List.nil_suffix, by rw [hnil]; rfl⟩ hlen ha hr
      · rw [if_neg (hret ▸ Token.code_ne_nul)]
        split
        next => trivial
        next hcode =>
          obtain ⟨w, rfl⟩ := Token.word_of_code (hret.symm.trans (not_not.mp hcode))
          obtain ⟨hgood, hword⟩ := hw w rfl
          rw [if_neg (Nat.not_le.mpr hlen)]
          split
          next => trivial
          next hmax =>
            have htok : Reads buf s [.word w] (gettoken (skip s)).rest := ⟨hsuf, hk⟩
            have hl := htok.length_le
            simp only [List.length_cons, List.length_nil] at hl
            refine (parseredirs_sound n hsuf).bind (fun hshort => by omega) ?_
            rintro rs1 s1 ⟨ts, hreads, hredirs, hg⟩
            have hl1 := hreads.length_le
            have hnext : (parseargs n (argv ++ [(gettoken (skip s)).span]) (rs ++ rs1) s1).Post _ _ := ih hreads.suffix
              (by simp only [List.length_append, List.length_cons, List.length_nil]; omega) ?_ ?_
            · refine hnext.mono (fun hshort => by omega) ?_
              rintro cmd s2 ⟨us, ws, rs2, hus, hargs, hcount, hspans, hcmd⟩
              refine ⟨.word w :: (ts ++ us), w :: ws, rs1.map (Redir.map Span.word) ++ rs2,
                htok.trans (hreads.trans hus), .cons hredirs hargs, ?_, hspans, ?_⟩
              · simp only [List.length_append, List.length_cons, List.length_nil] at hcount ⊢
                omega
              · rw [hcmd]
                simp [hword]
            · intro sp hsp
              rcases List.mem_append.mp hsp with hsp | hsp
              · exact ha sp hsp
              · cases List.mem_singleton.mp hsp
                exact hgood
            · intro r hm
              rcases List.mem_append.mp hm with hm | hm
              · exact hr r hm
              · exact hg r hm

end Args

theorem parsebacks_sound (n : Nat) {cmd : Cmd Span} (hs : s <:+ buf) :
    (parsebacks n cmd s).Post
      (fun cmd' s' => ∃ m, Reads buf s (List.replicate m .amp) s' ∧ cmd' = Cmd.back^[m] cmd)
      (n ≤ (tokens s).length) := by
  induction n generalizing cmd s with
  | zero => exact Nat.zero_le _
  | succ n ih =>
    unfold parsebacks
    split
    next hp =>
      have hreads : Reads buf s [.amp] (gettoken (skip s)).rest := peek_reads_one rfl hs hp
      have hl := hreads.length_le
      simp only [List.length_cons, List.length_nil] at hl
      refine (ih hreads.suffix).mono (fun hshort => by omega) ?_
      rintro cmd' s' ⟨m, hm, rfl⟩
      exact ⟨m + 1, by simpa [List.replicate_succ] using hreads.trans hm, rfl⟩
    next => exact ⟨0, Reads.skip hs, rfl⟩

/-- A nonterminal has been read, and stands for the command. -/
def Parsed (k : Nonterminal) (buf s : Text) (cmd : Cmd Span) (s' : Text) : Prop :=
  ∃ ts, Reads buf s ts s' ∧ Derives k ts (cmd.map Span.word) ∧ ∀ sp ∈ cmd.spans, sp.Good buf

theorem parseexec_simple {n : Nat} {rs : List (Redir Span)} {ts : List Token} {s1 : Text}
    (hreads : Reads buf s ts s1) (hredirs : Redirs ts (rs.map (Redir.map Span.word)))
    (hg : ∀ r ∈ rs, r.file.Good buf) :
    (parseargs n [] rs s1).Post (Parsed .exec buf s) (n ≤ (tokens s1).length) := by
  refine (parseargs_sound n hreads.suffix (by decide) (by simp) hg).mono id ?_
  rintro cmd s2 ⟨us, ws, rs', hus, hargs, hcount, hspans, hcmd⟩
  refine ⟨ts ++ us, hreads.trans hus, ?_, hspans⟩
  rw [hcmd]
  exact .simple hredirs hargs (by simpa using hcount)

/-- Four calls for each token, and one for each of the functions on the way to the first. -/
theorem parse_sound (n : Nat) : ∀ s, s <:+ buf →
    (parseline n s).Post (Parsed .line buf s) (n < 4 * (tokens s).length + 4) ∧
    (parsepipe n s).Post (Parsed .pipe buf s) (n < 4 * (tokens s).length + 3) ∧
    (parseexec n s).Post (Parsed .exec buf s) (n < 4 * (tokens s).length + 2) ∧
    (parseblock n s).Post (Parsed .exec buf s) (n < 4 * (tokens s).length + 1) := by
  induction n with
  | zero => exact fun s hs => ⟨by simp [parseline, ParseResult.Post], by simp [parsepipe, ParseResult.Post],
      by simp [parseexec, ParseResult.Post], by simp [parseblock, ParseResult.Post]⟩
  | succ n ih =>
    intro s hs
    refine ⟨?_, ?_, ?_, ?_⟩
    · unfold parseline
      refine (ih s hs).2.1.bind (fun hshort => by omega) ?_
      rintro cmd s1 ⟨ts, hts, hd, hg⟩
      have hl := hts.length_le
      refine (parsebacks_sound n hts.suffix).bind (fun hshort => by omega) ?_
      rintro cmd1 s2 ⟨m, hm, rfl⟩
      have hl1 := hm.length_le
      split
      next hp =>
        have hsemi : Reads buf s2 [.semi] (gettoken (skip s2)).rest := peek_reads_one rfl hm.suffix hp
        have hl2 := hsemi.length_le
        simp only [List.length_cons, List.length_nil] at hl2
        refine (ih _ hsemi.suffix).1.bind (fun hshort => by omega) ?_
        rintro right s3 ⟨us, hus, hdu, hgu⟩
        refine ⟨ts ++ List.replicate m .amp ++ .semi :: us, ?_, ?_, ?_⟩
        · exact (hts.trans hm).trans (hsemi.trans hus)
        · rw [Cmd.map, Cmd.map_backs]
          exact .seq m hd hdu
        · intro sp hsp
          rcases List.mem_append.mp hsp with hsp | hsp
          · exact hg sp (Cmd.spans_backs m cmd ▸ hsp)
          · exact hgu sp hsp
      next =>
        refine ⟨ts ++ List.replicate m .amp, ?_, ?_, ?_⟩
        · simpa using (hts.trans hm).trans (Reads.skip hm.suffix)
        · rw [Cmd.map_backs]
          exact .line m hd
        · rw [Cmd.spans_backs]
          exact hg
    · unfold parsepipe
      refine (ih s hs).2.2.1.bind (fun hshort => by omega) ?_
      rintro cmd s1 ⟨ts, hts, hd, hg⟩
      have hl := hts.length_le
      split
      next hp =>
        have hbar : Reads buf s1 [.bar] (gettoken (skip s1)).rest := peek_reads_one rfl hts.suffix hp
        have hl1 := hbar.length_le
        simp only [List.length_cons, List.length_nil] at hl1
        refine (ih _ hbar.suffix).2.1.bind (fun hshort => by omega) ?_
        rintro right s2 ⟨us, hus, hdu, hgu⟩
        refine ⟨ts ++ .bar :: us, hts.trans (hbar.trans hus), .pipe hd hdu, ?_⟩
        intro sp hsp
        rcases List.mem_append.mp hsp with hsp | hsp
        · exact hg sp hsp
        · exact hgu sp hsp
      next => exact ⟨ts, by simpa using hts.trans (Reads.skip hts.suffix), .one hd, hg⟩
    · have hskip := Reads.skip hs
      have hl := hskip.length_le
      unfold parseexec
      split
      next hp =>
        refine (ih _ hskip.suffix).2.2.2.mono (fun hshort => by simp at hl; omega) ?_
        rintro cmd s1 ⟨ts, hts, hd, hg⟩
        exact ⟨ts, hskip.trans hts, hd, hg⟩
      next hp =>
        refine (parseredirs_sound n hskip.suffix).bind (fun hshort => by simp at hl; omega) ?_
        rintro rs s1 ⟨ts, hts, hredirs, hg⟩
        have hts : Reads buf s ts s1 := hskip.trans hts
        have hl1 := hts.length_le
        exact (parseexec_simple hts hredirs hg).mono (fun hshort => by omega) (fun _ _ h => h)
    · unfold parseblock
      split
      next hp =>
        have hlpar : Reads buf s [.lpar] (gettoken (skip s)).rest := peek_reads_one rfl hs hp
        have hl := hlpar.length_le
        simp only [List.length_cons, List.length_nil] at hl
        refine (ih _ hlpar.suffix).1.bind (fun hshort => by omega) ?_
        rintro cmd s1 ⟨ts, hts, hd, hg⟩
        have hl1 := hts.length_le
        split
        next hp1 =>
          have hrpar : Reads buf s1 [.rpar] (gettoken (skip s1)).rest := peek_reads_one rfl hts.suffix hp1
          have hl2 := hrpar.length_le
          simp only [List.length_cons, List.length_nil] at hl2
          refine (parseredirs_sound n hrpar.suffix).bind (fun hshort => by omega) ?_
          rintro rs s2 ⟨us, hus, hredirs, hgr⟩
          refine ⟨.lpar :: (ts ++ .rpar :: us), hlpar.trans (hts.trans (hrpar.trans hus)), ?_, ?_⟩
          · rw [Cmd.map_wrap]
            exact .block hd hredirs
          · intro sp hsp
            rw [Cmd.spans_wrap] at hsp
            rcases List.mem_append.mp hsp with hsp | hsp
            · exact hg sp hsp
            · obtain ⟨r, hm, rfl⟩ := List.mem_map.mp hsp
              exact hgr r hm
        next => trivial
      next => trivial

end Sound

/-- The first token, if there is one, is as P says. -/
def Starts (P : Token → Prop) (ts : List Token) : Prop := ∀ k ∈ ts.head?, P k

theorem Starts.append {P : Token → Prop} {ts us : List Token} (ht : Starts P ts)
    (hu : Starts P us) :
    Starts P (ts ++ us) := by
  cases ts with
  | nil => exact hu
  | cons k ts => exact ht

theorem Starts.imp {P Q : Token → Prop} {ts : List Token} (h : Starts P ts) (hi : ∀ k, P k → Q k) :
    Starts Q ts :=
  fun k hk => hi k (h k hk)

/-- The tokens that may follow a nonterminal. -/
def Nonterminal.follow : Nonterminal → List Token
  | .line => [.rpar]
  | .pipe => [.rpar, .amp, .semi]
  | .exec => [.rpar, .amp, .semi, .bar]

def Follow (k : Nonterminal) (us : List Token) : Prop := Starts (· ∈ k.follow) us

def parse : Nonterminal → Nat → Text → ParseResult (Cmd Span)
  | .line => parseline
  | .pipe => parsepipe
  | .exec => parseexec

/-- The calls that a nonterminal takes besides four for each token. -/
def Nonterminal.calls : Nonterminal → Nat
  | .line => 4
  | .pipe => 3
  | .exec => 2

section Complete

variable {s : Text} {us : List Token}

theorem peek_starts {toks : List Char} (ht : ∀ c ∈ toks, c ∈ symbols)
    (h : Starts (·.first ∉ toks) (tokens s)) :
    peek s toks = false := by
  rw [peek_eq ht]
  cases hs : tokens s with
  | nil => rfl
  | cons k ts =>
    have hk : k.first ∉ toks := h k (by rw [hs]; rfl)
    simpa using hk

theorem peek_cons {toks : List Char} {k : Token} (ht : ∀ c ∈ toks, c ∈ symbols)
    (h : tokens s = k :: us) (hk : k.first ∈ toks) : peek s toks = true := by
  rw [peek_eq ht, h]
  simpa using hk

theorem gettoken_cons {k : Token} (h : tokens s = k :: us) :
    (gettoken s).ret = k.code ∧ tokens (gettoken s).rest = us ∧ ∀ w, k = .word w →
      (gettoken s).span.word = w := by
  rcases gettoken_at (List.suffix_refl s) with ⟨hnil, _, _⟩ | ⟨k', hk, hr, _, hw⟩
  · rw [hnil] at h
    contradiction
  · rw [hk] at h
    obtain ⟨rfl, hrest⟩ := List.cons.inj h
    exact ⟨hr, hrest, fun w he => (hw w he).2⟩

theorem gettoken_skip_cons {k : Token} (h : tokens s = k :: us) :
    (gettoken (skip s)).ret = k.code ∧ tokens (gettoken (skip s)).rest = us ∧
      ∀ w, k = .word w → (gettoken (skip s)).span.word = w :=
  gettoken_cons ((tokens_skip s).trans h)

theorem Redirs.starts {ts : List Token} {rs : List (Redir Text)} (h : Redirs ts rs) :
    Starts (·.first ∈ ['<', '>']) ts := by
  cases h <;> simp [Starts, Token.first, Token.code]

theorem Args.starts {ts : List Token} {ws : List Text} {rs : List (Redir Text)}
    (h : Args ts ws rs) :
    Starts (·.first = 'a') ts := by
  cases h <;> simp [Starts, Token.first, Token.code]

theorem parseredirs_complete {ts : List Token} {rs : List (Redir Text)} {n : Nat} (h : Redirs ts rs)
    (hs : tokens s = ts ++ us) (hu : Starts (·.first ∉ ['<', '>']) us) (hn : ts.length < n) :
    ∃ rs' s', parseredirs n s = .ok rs' s' ∧ tokens s' = us ∧
      rs'.map (Redir.map Span.word) = rs := by
  have hone : ∀ {k : Token} {w : Text} {ts : List Token} {rs : List (Redir Text)} {s : Text}
    {n : Nat},
      k.first ∈ ['<', '>'] → tokens s = k :: .word w :: (ts ++ us) →
      (∀ {s : Text}, tokens s = ts ++ us → ∃ rs' s', parseredirs n s = .ok rs' s' ∧ tokens s' = us ∧
        rs'.map (Redir.map Span.word) = rs) →
      ∃ rs' s', parseredirs (n + 1) s = .ok rs' s' ∧ tokens s' = us ∧
        rs'.map (Redir.map Span.word) = redirOf k.code w :: rs := by
    intro k w ts rs s n hk hs ih
    obtain ⟨hcode, hrest, _⟩ := gettoken_skip_cons hs
    obtain ⟨hfile, hrest', hword⟩ := gettoken_cons hrest
    have hfile : (gettoken (gettoken (skip s)).rest).ret = 'a' := hfile
    obtain ⟨rs', s', hrun, hs', hrs⟩ := ih hrest'
    refine ⟨redirOf (gettoken (skip s)).ret (gettoken (gettoken (skip s)).rest).span :: rs', s', ?_,
      hs', ?_⟩
    · unfold parseredirs
      rw [if_pos (peek_cons (by simp [symbols]) hs hk)]
      dsimp only
      rw [if_neg (by rw [hfile]; decide), hrun]
      rfl
    · rw [List.map_cons, hrs, hcode, ← hword w rfl]
      unfold redirOf Redir.map
      split <;> rfl
  induction h generalizing s n with
  | nil =>
    obtain ⟨m, rfl⟩ : ∃ m, n = m + 1 := ⟨n - 1, by simp at hn; omega⟩
    refine ⟨[], skip s, ?_, (tokens_skip s).trans hs, rfl⟩
    unfold parseredirs
    rw [if_neg]
    rw [peek_starts (by simp [symbols]) (hs ▸ hu)]
    simp
  | input h ih =>
    simp only [List.length_cons] at hn
    obtain ⟨m, rfl⟩ : ∃ m, n = m + 1 := ⟨n - 1, by omega⟩
    exact hone (k := .lt) (by decide) hs (fun hs => ih hs (by omega))
  | output h ih =>
    simp only [List.length_cons] at hn
    obtain ⟨m, rfl⟩ : ∃ m, n = m + 1 := ⟨n - 1, by omega⟩
    exact hone (k := .gt) (by decide) hs (fun hs => ih hs (by omega))
  | append h ih =>
    simp only [List.length_cons] at hn
    obtain ⟨m, rfl⟩ : ∃ m, n = m + 1 := ⟨n - 1, by omega⟩
    exact hone (k := .gtgt) (by decide) hs (fun hs => ih hs (by omega))

theorem Follow.not_redir (h : Follow .exec us) : Starts (·.first ∉ ['<', '>']) us := by
  refine h.imp ?_
  simp [Nonterminal.follow, Token.first, Token.code]

theorem parseargs_complete {ts : List Token} {ws : List Text} {rs : List (Redir Text)} {n : Nat}
    (argv : List Span) (rs0 : List (Redir Span)) (h : Args ts ws rs) (hs : tokens s = ts ++ us)
    (hu : Follow .exec us) (hn : ts.length < n) (hmax : argv.length + ws.length < MAXARGS) :
    ∃ cmd s', parseargs n argv rs0 s = .ok cmd s' ∧ tokens s' = us ∧
      cmd.map Span.word = (Cmd.exec (argv.map Span.word ++ ws)).wrap
        (rs0.map (Redir.map Span.word) ++ rs) := by
  induction h generalizing s n argv rs0 with
  | nil =>
    obtain ⟨m, rfl⟩ : ∃ m, n = m + 1 := ⟨n - 1, by simp at hn; omega⟩
    have hlen : argv.length < MAXARGS := by simpa using hmax
    have hend : ∀ s', endargs argv rs0 s' = .ok ((Cmd.exec argv).wrap rs0) s' :=
      fun s' => if_pos hlen
    have hmap : ((Cmd.exec argv).wrap rs0).map Span.word =
        (Cmd.exec (argv.map Span.word ++ [])).wrap (rs0.map (Redir.map Span.word) ++ []) := by
      simp [Cmd.map_wrap, Cmd.map]
    unfold parseargs
    cases us with
    | nil =>
      have hpeek : peek s ['|', ')', '&', ';'] = false :=
        peek_starts (by simp [symbols]) (by rw [hs]; simp [Starts])
      rcases gettoken_at ((skip_suffix s).trans (List.suffix_refl s)) with ⟨hnil, hret, hrest⟩ | ⟨k, hk, _⟩
      · refine ⟨_, [], ?_, rfl, hmap⟩
        simp only [hpeek, Bool.false_eq_true, if_false, hret, if_true, hrest, hend]
      · rw [tokens_skip, hs] at hk
        contradiction
    | cons k us =>
      have hk : k.first ∈ ['|', ')', '&', ';'] := by
        have hf : k ∈ Nonterminal.exec.follow := hu k rfl
        revert hf
        cases k <;> simp [Nonterminal.follow, Token.first, Token.code]
      refine ⟨_, skip s, ?_, (tokens_skip s).trans hs, hmap⟩
      rw [if_pos (peek_cons (by simp [symbols]) hs hk), hend]
  | @cons w ts rs us1 ws rs' hr ha ih =>
    simp only [List.length_cons, List.length_append] at hn hmax
    obtain ⟨m, rfl⟩ : ∃ m, n = m + 1 := ⟨n - 1, by omega⟩
    have hs' : tokens s = .word w :: (ts ++ (us1 ++ us)) := by simpa using hs
    obtain ⟨hret, hrest, hword⟩ := gettoken_skip_cons hs'
    have hret : (gettoken (skip s)).ret = 'a' := hret
    have hpeek : peek s ['|', ')', '&', ';'] = false :=
      peek_starts (by simp [symbols]) (by rw [hs']; simp [Starts, Token.first, Token.code])
    have hnext : Starts (·.first ∉ ['<', '>']) (us1 ++ us) :=
      (ha.starts.imp (fun k hk => by rw [hk]; decide)).append hu.not_redir
    obtain ⟨rs1, s1, hrun, hs1, hrs1⟩ := parseredirs_complete (n := m) hr hrest hnext (by omega)
    obtain ⟨cmd, s2, hrun2, hs2, hcmd⟩ :=
      ih (n := m) (argv ++ [(gettoken (skip s)).span]) (rs0 ++ rs1) hs1
      (by omega) (by simp only [List.length_append, List.length_cons, List.length_nil]; omega)
    refine ⟨cmd, s2, ?_, hs2, ?_⟩
    · unfold parseargs
      rw [if_neg (by simp [hpeek])]
      dsimp only
      rw [if_neg (by rw [hret]; decide), if_neg (by rw [hret]; decide), if_neg (by omega),
        if_neg (by omega), hrun]
      exact hrun2
    · rw [hcmd, ← hrs1]
      simp [hword w rfl]

theorem parsebacks_complete {m n : Nat} (cmd : Cmd Span)
    (hs : tokens s = List.replicate m .amp ++ us) (hu : Starts (·.first ∉ ['&']) us) (hn : m < n) :
    ∃ s', parsebacks n cmd s = .ok (Cmd.back^[m] cmd) s' ∧ tokens s' = us := by
  induction m generalizing s n cmd with
  | zero =>
    obtain ⟨n, rfl⟩ : ∃ k, n = k + 1 := ⟨n - 1, by omega⟩
    have hpeek : peek s ['&'] = false := peek_starts (by simp [symbols]) (by rw [hs]; exact hu)
    exact ⟨skip s, by simp [parsebacks, hpeek], (tokens_skip s).trans hs⟩
  | succ m ih =>
    obtain ⟨n, rfl⟩ : ∃ k, n = k + 1 := ⟨n - 1, by omega⟩
    have hs' : tokens s = .amp :: (List.replicate m .amp ++ us) := by
      simpa [List.replicate_succ] using hs
    obtain ⟨_, hrest, _⟩ := gettoken_skip_cons hs'
    obtain ⟨s', hrun, hs2⟩ := ih (n := n) cmd.back hrest (by omega)
    refine ⟨s', ?_, hs2⟩
    unfold parsebacks
    rw [if_pos (peek_cons (by simp [symbols]) hs' (by decide)), hrun]
    rfl

theorem Follow.not_first {k : Nonterminal} {toks : List Char} (h : Follow k us)
    (ht : ∀ x ∈ k.follow, x.first ∉ toks) : Starts (·.first ∉ toks) us :=
  h.imp ht

theorem parseline_complete {ts : List Token} (vs : List Token) {t : Cmd Text} {m n : Nat}
    (ih : ∀ {s : Text} {us : List Token} {n : Nat}, tokens s = ts ++ us → Follow .pipe us →
      4 * (tokens s).length + 3 ≤ n →
        ∃ cmd s', parsepipe n s = .ok cmd s' ∧ tokens s' = us ∧ cmd.map Span.word = t)
    (hs : tokens s = ts ++ (List.replicate m .amp ++ vs)) (hv : Starts (· ∈ [Token.rpar, .semi]) vs)
    (hn : 4 * (tokens s).length + 3 ≤ n) :
    ∃ cmd s', (parsepipe n s).bind (parsebacks n) = .ok cmd s' ∧ tokens s' = vs ∧
      cmd.map Span.word = Cmd.back^[m] t := by
  have hfollow : Follow .pipe (List.replicate m .amp ++ vs) := by
    refine Starts.append ?_ (hv.imp (by simp [Nonterminal.follow]))
    intro k hk
    have : k = .amp := List.eq_of_mem_replicate (List.mem_of_mem_head? hk)
    simp [this, Nonterminal.follow]
  have hlen := congrArg List.length hs
  simp only [List.length_append, List.length_replicate] at hlen
  obtain ⟨cmd, s1, hrun, hs1, hcmd⟩ := ih hs hfollow hn
  have hamp : Starts (·.first ∉ ['&']) vs := hv.imp (by simp [Token.first, Token.code])
  obtain ⟨s2, hrun2, hs2⟩ := parsebacks_complete (n := n) cmd hs1 hamp (by omega)
  refine ⟨_, s2, ?_, hs2, by rw [Cmd.map_backs, hcmd]⟩
  rw [hrun]
  exact hrun2

theorem parseline_succ (n : Nat) (s : Text) :
    parseline (n + 1) s = ((parsepipe n s).bind (parsebacks n)).bind fun cmd s =>
      if peek s [';'] then (parseline n (gettoken (skip s)).rest).bind fun right s => .ok (.list cmd right) s
      else .ok cmd (skip s) := by
  rw [parseline]
  cases parsepipe n s <;> rfl

theorem parse_complete {k : Nonterminal} {ts : List Token} {t : Cmd Text} {n : Nat}
    (h : Derives k ts t) (hs : tokens s = ts ++ us) (hu : Follow k us)
    (hn : 4 * (tokens s).length + k.calls ≤ n) :
    ∃ cmd s', parse k n s = .ok cmd s' ∧ tokens s' = us ∧ cmd.map Span.word = t := by
  obtain ⟨n, rfl⟩ : ∃ j, n = j + 1 :=
    ⟨n - 1, by cases k <;> simp only [Nonterminal.calls] at hn <;> omega⟩
  have hlen := congrArg List.length hs
  induction h generalizing s us n with
  | @line ts t m h ih =>
    simp only [Nonterminal.calls] at hn
    have hv : Starts (· ∈ [Token.rpar, .semi]) us := hu.imp (by simp [Nonterminal.follow])
    have hpipe : ∀ {s : Text} {us : List Token} {n : Nat}, tokens s = ts ++ us → Follow .pipe us →
        4 * (tokens s).length + 3 ≤ n →
        ∃ cmd s', parsepipe n s = .ok cmd s' ∧ tokens s' = us ∧ cmd.map Span.word = t := by
      intro s us n hs hu hn
      obtain ⟨n, rfl⟩ : ∃ j, n = j + 1 := ⟨n - 1, by omega⟩
      exact ih hs hu n hn (congrArg List.length hs)
    obtain ⟨cmd, s1, hrun, hs1, hcmd⟩ :=
      parseline_complete us (m := m) (n := n) hpipe (by simpa using hs) hv
      (by omega)
    refine ⟨cmd, skip s1, ?_, (tokens_skip s1).trans hs1, hcmd⟩
    have hpeek : peek s1 [';'] = false :=
      peek_starts (by simp [symbols]) (hs1 ▸ hu.not_first (by decide))
    rw [parse, parseline_succ, hrun]
    simp [ParseResult.bind, hpeek]
  | @seq ts t vs u m h hd ih ihu =>
    simp only [Nonterminal.calls] at hn
    have hpipe : ∀ {s : Text} {us : List Token} {n : Nat}, tokens s = ts ++ us → Follow .pipe us →
        4 * (tokens s).length + 3 ≤ n →
        ∃ cmd s', parsepipe n s = .ok cmd s' ∧ tokens s' = us ∧ cmd.map Span.word = t := by
      intro s us n hs hu hn
      obtain ⟨n, rfl⟩ : ∃ j, n = j + 1 := ⟨n - 1, by omega⟩
      exact ih hs hu n hn (congrArg List.length hs)
    obtain ⟨cmd, s1, hrun, hs1, hcmd⟩ :=
      parseline_complete (.semi :: (vs ++ us)) (m := m) (n := n) hpipe
      (by simpa using hs) (by simp [Starts]) (by omega)
    obtain ⟨_, hrest, _⟩ := gettoken_skip_cons hs1
    have hlen1 := congrArg List.length hrest
    simp only [List.length_append, List.length_cons] at hlen hlen1
    obtain ⟨n, rfl⟩ : ∃ j, n = j + 1 := ⟨n - 1, by omega⟩
    obtain ⟨right, s2, hrun2, hs2, hright⟩ :=
      ihu hrest hu n (by simp only [Nonterminal.calls]; omega) (by simpa using hlen1)
    refine ⟨.list cmd right, s2, ?_, hs2, by simp [Cmd.map, hcmd, hright]⟩
    have hpeek : peek s1 [';'] = true := peek_cons (by simp [symbols]) hs1 (by decide)
    have hrun2 : parseline (n + 1) (gettoken (skip s1)).rest = .ok right s2 := hrun2
    rw [parse, parseline_succ, hrun]
    simp [ParseResult.bind, hpeek, hrun2]
  | one h ih =>
    simp only [Nonterminal.calls] at hn ih
    obtain ⟨n, rfl⟩ : ∃ j, n = j + 1 := ⟨n - 1, by omega⟩
    obtain ⟨cmd, s1, hrun, hs1, hcmd⟩ :=
      ih hs (hu.imp (by simp [Nonterminal.follow])) n (by omega) hlen
    refine ⟨cmd, skip s1, ?_, (tokens_skip s1).trans hs1, hcmd⟩
    have hpeek : peek s1 ['|'] = false :=
      peek_starts (by simp [symbols]) (hs1 ▸ hu.not_first (by decide))
    have hrun : parseexec (n + 1) s = .ok cmd s1 := hrun
    rw [parse, parsepipe, hrun]
    simp [ParseResult.bind, hpeek]
  | @pipe ts t vs u h hd ih ihu =>
    simp only [Nonterminal.calls] at hn ih ihu
    have hs' : tokens s = ts ++ (.bar :: (vs ++ us)) := by simpa using hs
    simp only [List.length_append, List.length_cons] at hlen
    obtain ⟨n, rfl⟩ : ∃ j, n = j + 1 := ⟨n - 1, by omega⟩
    obtain ⟨cmd, s1, hrun, hs1, hcmd⟩ :=
      ih hs' (by simp [Follow, Starts, Nonterminal.follow]) n (by omega)
      (congrArg List.length hs')
    obtain ⟨_, hrest, _⟩ := gettoken_skip_cons hs1
    have hlen1 := congrArg List.length hrest
    obtain ⟨right, s2, hrun2, hs2, hright⟩ := ihu hrest hu n
      (by simp only [List.length_append] at hlen1; omega) hlen1
    refine ⟨.pipe cmd right, s2, ?_, hs2, by simp [Cmd.map, hcmd, hright]⟩
    have hpeek : peek s1 ['|'] = true := peek_cons (by simp [symbols]) hs1 (by decide)
    have hrun : parseexec (n + 1) s = .ok cmd s1 := hrun
    have hrun2 : parsepipe (n + 1) (gettoken (skip s1)).rest = .ok right s2 := hrun2
    rw [parse, parsepipe, hrun]
    simp [ParseResult.bind, hpeek, hrun2]
  | @block ts t vs rs h hr ih =>
    simp only [Nonterminal.calls] at hn ih
    have hs' : tokens s = .lpar :: (ts ++ (.rpar :: (vs ++ us))) := by simpa using hs
    simp only [List.length_append, List.length_cons] at hlen
    obtain ⟨_, hrest, _⟩ := gettoken_skip_cons hs'
    have hlen1 := congrArg List.length hrest
    simp only [List.length_append, List.length_cons] at hlen1
    obtain ⟨n, rfl⟩ : ∃ j, n = j + 2 := ⟨n - 2, by omega⟩
    obtain ⟨cmd, s1, hrun, hs1, hcmd⟩ :=
      ih hrest (by simp [Follow, Starts, Nonterminal.follow]) n (by omega)
      (congrArg List.length hrest)
    obtain ⟨_, hrest1, _⟩ := gettoken_skip_cons hs1
    obtain ⟨rs', s2, hrun2, hs2, hrs⟩ :=
      parseredirs_complete (n := n + 1) hr hrest1 hu.not_redir (by omega)
    refine ⟨cmd.wrap rs', s2, ?_, hs2, by rw [Cmd.map_wrap, hcmd, hrs]⟩
    have hpeek : peek s ['('] = true := peek_cons (by simp [symbols]) hs' (by decide)
    have hpeek' : peek (skip s) ['('] = true :=
      peek_cons (by simp [symbols]) ((tokens_skip s).trans hs') (by decide)
    have hpeek1 : peek s1 [')'] = true := peek_cons (by simp [symbols]) hs1 (by decide)
    have hrun : parseline (n + 1) (gettoken (skip s)).rest = .ok cmd s1 := hrun
    rw [parse, parseexec, if_pos hpeek, parseblock, if_pos hpeek', skip_skip, hrun]
    simp [ParseResult.bind, hpeek1, hrun2]
  | @simple ts rs vs ws rs' hr ha hmax =>
    simp only [Nonterminal.calls] at hn
    simp only [List.length_append] at hlen
    have hs' : tokens (skip s) = ts ++ (vs ++ us) := by rw [tokens_skip, hs, List.append_assoc]
    have hpeek : peek s ['('] = false := by
      refine peek_starts (by simp [symbols]) ?_
      rw [hs]
      refine Starts.append (Starts.append (hr.starts.imp ?_) (ha.starts.imp ?_)) (hu.not_first (by decide))
      · intro k hk
        have : k.first = '<' ∨ k.first = '>' := by simpa using hk
        rcases this with h | h <;> rw [h] <;> decide
      · intro k hk
        rw [hk]
        decide
    have hnext : Starts (·.first ∉ ['<', '>']) (vs ++ us) :=
      (ha.starts.imp (fun k hk => by rw [hk]; decide)).append hu.not_redir
    obtain ⟨rs1, s1, hrun, hs1, hrs1⟩ := parseredirs_complete (n := n) hr hs' hnext (by omega)
    obtain ⟨cmd, s2, hrun2, hs2, hcmd⟩ := parseargs_complete (n := n) [] rs1 ha hs1 hu (by omega)
      (by simpa using hmax)
    refine ⟨cmd, s2, ?_, hs2, by rw [hcmd, hrs1]; rfl⟩
    rw [parse, parseexec, if_neg (by simp [hpeek]), hrun]
    exact hrun2

theorem skip_of_tokens_nil (h : tokens s = []) : skip s = [] := by
  cases hq : skip s with
  | nil => rfl
  | cons c t =>
    rw [← tokens_skip, hq] at h
    have hnw : c ∉ whitespace := skip_head (by rw [hq]; rfl)
    by_cases hc : c ∈ symbols
    · obtain ⟨k, hk, _⟩ := scan_symbol (s := t) hc
      rw [hk] at h
      contradiction
    · rw [(scan_word (isWordChar_iff.mpr ⟨hnw, hc⟩)).2] at h
      contradiction

end Complete

theorem length_symbolToken (c : Char) : (symbolToken c).length ≤ 1 := by
  unfold symbolToken
  repeat' split
  all_goals simp

theorem length_lex (w s : Text) : (lex w s).length ≤ (flush w).length + s.length := by
  fun_induction lex w s with
  | case1 w => simp
  | case2 w c s hc ih =>
    have hone : (flush (w ++ [c])).length = 1 := by simp [flush]
    simp only [List.length_cons]
    omega
  | case3 w c hc =>
    have hsym := length_symbolToken c
    simp only [List.length_append, List.length_cons, List.length_nil]
    omega
  | case4 w c hc d u hgt ih =>
    simp only [flush, if_true, List.length_nil] at ih
    simp only [List.length_append, List.length_cons]
    omega
  | case5 w c hc d u hgt ih =>
    have hsym := length_symbolToken c
    simp only [flush, if_true, List.length_nil] at ih
    simp only [List.length_append, List.length_cons] at ih ⊢
    omega

theorem length_tokens (s : Text) : (tokens s).length ≤ s.length := by
  have h := length_lex [] s
  simp only [flush, if_true, List.length_nil] at h
  unfold tokens
  omega

theorem parseline_accepts {s : Text} {cmd : Cmd Span} {rest : Text}
    (h : parseline (4 * (cstr s).length + 4) (cstr s) = .ok cmd rest) (hr : skip rest = []) :
    Derives .line (tokens (cstr s)) (cmd.map Span.word) ∧ ∀ sp ∈ cmd.spans, sp.Good (cstr s) := by
  have hsound := (parse_sound (4 * (cstr s).length + 4) (cstr s) (List.suffix_refl _)).1
  rw [h] at hsound
  obtain ⟨ts, hreads, hderives, hgood⟩ := hsound
  have hnil : tokens rest = [] := by rw [← tokens_skip, hr, tokens_nil]
  have hsplit := hreads.split
  rw [hnil, List.append_nil] at hsplit
  exact ⟨hsplit ▸ hderives, hgood⟩

theorem cstr_ne_nul (s : Text) : ∀ c ∈ cstr s, c ≠ nul :=
  fun c hc => by simpa using List.mem_takeWhile_imp hc

/-- The parser accepts exactly the shell's grammar: it returns the command that the tokens of its
argument derive, and panics when they derive none. -/
theorem parsecmd_iff_derives (s : Text) :
    (∀ t, parsecmd s = .ok t [] ↔ Derives .line (tokens (cstr s)) t) ∧
      ((∃ t, parsecmd s = .ok t []) ∨ ∃ msg, parsecmd s = .panic msg) := by
  have hlen := length_tokens (cstr s)
  have hsound := (parse_sound (4 * (cstr s).length + 4) (cstr s) (List.suffix_refl _)).1
  have hcomplete : ∀ t, Derives .line (tokens (cstr s)) t → ∃ cmd s',
      parseline (4 * (cstr s).length + 4) (cstr s) = .ok cmd s' ∧ tokens s' = [] ∧ cmd.map Span.word = t := by
    intro t ht
    have hall : tokens (cstr s) = tokens (cstr s) ++ [] := (List.append_nil _).symm
    have hfollow : Follow .line [] := by simp [Follow, Starts]
    exact parse_complete (n := 4 * (cstr s).length + 4) ht hall hfollow
      (by simp only [Nonterminal.calls]; omega)
  unfold parsecmd
  cases hr : parseline (4 * (cstr s).length + 4) (cstr s) with
  | ok cmd rest =>
    by_cases hrest : skip rest = []
    · obtain ⟨hderives, hgood⟩ := parseline_accepts hr hrest
      simp only [ParseResult.bind, if_pos hrest, nulterminate_eq (cstr_ne_nul s) hgood]
      refine ⟨fun t => ⟨?_, ?_⟩, .inl ⟨_, rfl⟩⟩
      · rintro ⟨⟩
        exact hderives
      · intro ht
        obtain ⟨cmd', s', hrun, _, hcmd⟩ := hcomplete t ht
        rw [hr] at hrun
        cases hrun
        rw [hcmd]
    · simp only [ParseResult.bind, if_neg hrest]
      refine ⟨fun t => ⟨nofun, ?_⟩, .inr ⟨_, rfl⟩⟩
      intro ht
      obtain ⟨cmd', s', hrun, hs', _⟩ := hcomplete t ht
      rw [hr] at hrun
      cases hrun
      exact absurd (skip_of_tokens_nil hs') hrest
  | panic msg =>
    refine ⟨fun t => ⟨nofun, ?_⟩, .inr ⟨_, rfl⟩⟩
    intro ht
    obtain ⟨cmd', s', hrun, _⟩ := hcomplete t ht
    rw [hr] at hrun
    contradiction
  | overrun =>
    rw [hr] at hsound
    exact hsound.elim
  | spent =>
    rw [hr] at hsound
    have hshort : 4 * (cstr s).length + 4 < 4 * (tokens (cstr s)).length + 4 := hsound
    omega

example : parsecmd "(a;b >c)|d&".toList =
    .ok (.back (.pipe (.list (.exec ["a".toList])
      (.redir (.exec ["b".toList]) ⟨"c".toList, wronlyCreate, 1⟩)) (.exec ["d".toList]))) [] := by
  decide +kernel

example : parsecmd "a (b)".toList = .panic "syntax" := by decide +kernel

end Xv6
