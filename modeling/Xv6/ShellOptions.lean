import Mathlib.Data.List.TakeDrop
import Xv6.ShellLines
import Xv6.TraceBuffers

namespace Xv6

namespace SyscallCmd

/-- strcmp of the array, from index i on, with a string: whether it returns 0. -/
def strcmp (a : Fin 20 → Char) : Nat → Text → Option Bool
  | i, [] => (TraceBuf.load a i).map fun c => c == nul
  | i, d :: q => (TraceBuf.load a i).bind fun c => if c ≠ nul ∧ c = d then strcmp a (i + 1) q
    else some (c == d)

/-- The loop over the names: the last one that is equal counts. -/
def search (a : Fin 20 → Char) : List (String × Nat) → Int → Option Int
  | [], syscallIndex => some syscallIndex
  | (name, i) :: names, syscallIndex =>
    (strcmp a 0 name.toList).bind fun b => search a names (if b then i else syscallIndex)

/-- parse_syscallN with its array, which is zeroed first: none when a byte outside of it is written
or read. -/
def parse (buf : Text) (start : Nat) : Option Int :=
  (TraceBuf.string ((buf.take (strlen buf - 1)).drop start) (fun _ => nul) 0).bind
    fun (syscallCmd, _) =>
    search syscallCmd syscallNames.zipIdx (-1)

/-- The option forms with a name; the name starts behind them. -/
def forms : List String := ["strace -e ", "strace -s -e ", "strace -f -e "]

/-- What stands behind the option, up to the newline. -/
def word (buf : Text) (start : Nat) : Text := ((cstr buf).drop start).takeWhile fun c => c ≠ '\n'

/-- r is the place of a text among the names, or -1 if it is none of them. -/
def IsIndex (t : Text) (r : Int) : Prop :=
  (∀ i : Nat, r = i ↔ (syscallNames[i]?).map String.toList = some t) ∧
    (r = -1 ↔ t ∉ syscallNames.map String.toList)

/-- The parse stays in its array and returns the index of the word. -/
def Right (buf : Text) (start : Nat) : Prop :=
  ∃ r, parse buf start = some r ∧ IsIndex (word buf start) r

/-- A line without newline loses a character of its word. -/
def Fits (buf : Text) (start : Nat) : Prop :=
  if '\n' ∈ cstr buf then (word buf start).length ≤ 20
  else (word buf start).length ≤ 21 ∧ word buf start ∉ syscallNames.map String.toList ∧
    (word buf start).dropLast ∉ syscallNames.map String.toList

instance (buf : Text) (start : Nat) : Decidable (Fits buf start) := by
  unfold Fits
  infer_instance

variable {t u w : Text} {i : Nat}

theorem load_zeroed (hi : i < 20) :
    TraceBuf.load (TraceBuf.write (fun _ : Fin 20 => nul) 0 t) i = some (t.getD i nul) := by
  rw [TraceBuf.load, dif_pos hi, TraceBuf.write]
  by_cases hit : i < t.length
  · rw [if_pos ⟨Nat.zero_le _, by simpa using hit⟩]
    rfl
  · rw [if_neg (by simpa using hit), List.getD_eq_default _ _ (by omega)]

theorem load_behind (hw : w.length < 20) :
    TraceBuf.load (TraceBuf.write (fun _ : Fin 20 => nul) 0 (w ++ t)) w.length =
      some (t.getD 0 nul) := by
  rw [load_zeroed hw, List.getD_append_right _ _ _ _ (Nat.le_refl _), Nat.sub_self]

theorem strcmp_eq (hn : nul ∉ t) (hu : (w ++ u).length < 20) (hnu : nul ∉ u) :
    strcmp (TraceBuf.write (fun _ => nul) 0 (w ++ t)) w.length u = some (decide (t = u)) := by
  have hload : TraceBuf.load (TraceBuf.write (fun _ : Fin 20 => nul) 0 (w ++ t)) w.length =
    some (t.getD 0 nul) :=
    load_behind (by rw [List.length_append] at hu; omega)
  induction u generalizing w t with
  | nil =>
    rw [strcmp, hload]
    cases t with
    | nil => rfl
    | cons c t =>
      rw [List.mem_cons, not_or] at hn
      simp [Ne.symm hn.1]
  | cons d u ih =>
    rw [strcmp, hload, Option.bind_some]
    rw [List.mem_cons, not_or] at hnu
    cases t with
    | nil => simp [hnu.1]
    | cons c t =>
      rw [List.mem_cons, not_or] at hn
      rw [List.getD_cons_zero]
      by_cases hcd : c = d
      · subst hcd
        have hw : w ++ c :: t = (w ++ [c]) ++ t := by simp
        have hlen : w.length + 1 = (w ++ [c]).length := by simp
        have hu' : (w ++ [c] ++ u).length < 20 := by simpa using hu
        have hload' := load_behind (w := w ++ [c]) (t := t) (by rw [List.length_append] at hu'; omega)
        rw [if_pos ⟨Ne.symm hn.1, rfl⟩, hw, hlen, ih hn.2 hu' hnu.2 hload']
        simp
      · rw [if_neg (fun h => hcd h.2)]
        simp [hcd]

theorem search_eq {names : List (String × Nat)} {r : Int} (hn : nul ∉ t)
    (hnames : ∀ p ∈ names, p.1.toList.length < 20 ∧ nul ∉ p.1.toList) :
    search (TraceBuf.write (fun _ => nul) 0 t) names r =
      some (names.foldl (fun syscallIndex (name, i) =>
        if t = name.toList then (i : Int) else syscallIndex) r) := by
  induction names generalizing r with
  | nil => rfl
  | cons p names ih =>
    obtain ⟨hlen, hnul⟩ := hnames p List.mem_cons_self
    have hcmp : strcmp (TraceBuf.write (fun _ => nul) 0 t) 0 p.1.toList =
      some (decide (t = p.1.toList)) :=
      strcmp_eq (w := []) hn hlen hnul
    rw [search, hcmp, Option.bind_some, ih fun q hq => hnames q (List.mem_cons_of_mem _ hq),
      List.foldl_cons]
    simp

/-- The part of the line that is copied: its last character is left out, be it a newline or not. -/
theorem copied_eq (buf : Text) (start : Nat) :
    (buf.take (strlen buf - 1)).drop start = ((cstr buf).drop start).dropLast := by
  have hpre : buf.take (strlen buf) = cstr buf :=
    (List.prefix_iff_eq_take.mp (List.takeWhile_prefix _)).symm
  have htake : buf.take (strlen buf - 1) = (cstr buf).dropLast := by
    rw [List.dropLast_eq_take, ← hpre, List.take_take, List.length_take]
    congr 1
    have : strlen buf ≤ buf.length := (List.takeWhile_prefix _).length_le
    omega
  rw [htake, List.dropLast_drop_eq_drop_dropLast]

theorem parse_eq (buf : Text) (start : Nat) : parse buf start = parseSyscallN buf start := by
  have hnul : nul ∉ (buf.take (strlen buf - 1)).drop start := by
    rw [copied_eq]
    intro h
    have hc := List.mem_of_mem_drop (List.mem_of_mem_dropLast h)
    simpa using List.mem_takeWhile_imp hc
  unfold parse parseSyscallN
  dsimp only
  rw [TraceBuf.string_eq (Nat.zero_le _), Nat.zero_add, cstr_eq hnul]
  by_cases hlen : ((buf.take (strlen buf - 1)).drop start).length ≤ 20
  · rw [if_pos hlen, if_pos hlen, Option.bind_some]
    exact search_eq hnul (by decide)
  · rw [if_neg hlen, if_neg hlen]
    rfl

theorem foldl_names {names : List String} {k : Nat} {r : Int} (hd : names.Nodup) :
    let index := (names.zipIdx k).foldl
      (fun r (name, i) => if t = name.toList then (i : Int) else r) r
    (∀ i : Nat, (names[i]?).map String.toList = some t → index = (k + i : Nat)) ∧
      (t ∉ names.map String.toList → index = r) := by
  induction names generalizing k r with
  | nil => simp
  | cons name names ih =>
    obtain ⟨hnot, hd⟩ := List.nodup_cons.mp hd
    rw [List.zipIdx_cons, List.foldl_cons]
    obtain ⟨hin, hout⟩ := ih (k := k + 1) (r := if t = name.toList then (k : Int) else r) hd
    refine ⟨fun i hi => ?_, fun ht => ?_⟩
    · cases i with
      | zero =>
        have ht : t = name.toList := by simpa using hi.symm
        have hnot' : t ∉ names.map String.toList := by
          intro h
          obtain ⟨m, hm, hmt⟩ := List.mem_map.mp h
          exact hnot (String.toList_inj.mp (hmt.trans ht) ▸ hm)
        rw [hout hnot', if_pos ht, Nat.add_zero]
      | succ i =>
        rw [hin i (by simpa using hi)]
        congr 1
        omega
    · rw [List.map_cons, List.mem_cons, not_or] at ht
      rw [hout ht.2, if_neg ht.1]

theorem mem_names_iff :
    t ∈ syscallNames.map String.toList ↔ ∃ i :
    Nat, (syscallNames[i]?).map String.toList = some t := by
  rw [List.mem_iff_getElem?]
  simp only [List.getElem?_map]

theorem isIndex_of_notMem (h : t ∉ syscallNames.map String.toList) : IsIndex t (-1) :=
  ⟨fun i => ⟨fun hi => by omega, fun hi => absurd (mem_names_iff.mpr ⟨i, hi⟩) h⟩,
    ⟨fun _ => h, fun _ => rfl⟩⟩

theorem isIndex_foldl (t : Text) :
    IsIndex t (syscallNames.zipIdx.foldl
      (fun r (name, i) => if t = name.toList then (i : Int) else r) (-1)) := by
  have hnodup : syscallNames.Nodup := by decide
  obtain ⟨hin, hout⟩ := foldl_names (t := t) (k := 0) (r := -1) hnodup
  by_cases hm : t ∈ syscallNames.map String.toList
  · obtain ⟨j, hj⟩ := mem_names_iff.mp hm
    have hji := hin j hj
    rw [Nat.zero_add] at hji
    rw [hji]
    refine ⟨fun i => ⟨fun hi => ?_, fun hi => ?_⟩, ⟨fun h1 => by omega, fun hn => absurd hm hn⟩⟩
    · have hij : i = j := by omega
      rwa [hij]
    · have hii := hin i hi
      rwa [Nat.zero_add, hji] at hii
  · rw [hout hm]
    exact isIndex_of_notMem hm

theorem IsIndex.unique {r r' : Int} (h : IsIndex t r) (h' : IsIndex t r') : r = r' := by
  by_cases hm : t ∈ syscallNames.map String.toList
  · obtain ⟨j, hj⟩ := mem_names_iff.mp hm
    rw [(h.1 j).mpr hj, (h'.1 j).mpr hj]
  · rw [h.2.mpr hm, h'.2.mpr hm]

theorem parse_iff {buf : Text} {start : Nat} {r : Int} (ht : ((cstr buf).drop start).dropLast = t) :
    parse buf start = some r ↔ t.length ≤ 20 ∧ IsIndex t r := by
  have hnul : nul ∉ t := by
    rw [← ht]
    intro h
    simpa using List.mem_takeWhile_imp (List.mem_of_mem_drop (List.mem_of_mem_dropLast h))
  rw [parse_eq]
  unfold parseSyscallN
  dsimp only
  rw [copied_eq, ht, cstr_eq hnul]
  by_cases hlen : t.length ≤ 20
  · rw [if_pos hlen, Option.some_inj]
    refine ⟨?_, fun h => (isIndex_foldl t).unique h.2⟩
    rintro rfl
    exact ⟨hlen, isIndex_foldl t⟩
  · rw [if_neg hlen]
    exact ⟨fun h => absurd h (by simp), fun h => absurd h.1 hlen⟩

theorem newline_notMem_gets (n : Nat) (input : Text) : '\n' ∉ (gets n input).dropLast := by
  induction n generalizing input with
  | zero => simp [gets]
  | succ n ih =>
    cases input with
    | nil => simp [gets]
    | cons c input =>
      rw [gets]
      split
      next => simp
      next hc =>
        rw [not_or] at hc
        cases hg : gets n input with
        | nil => simp
        | cons d l =>
          have hrest := ih input
          rw [hg] at hrest
          rw [List.dropLast_cons_cons, List.mem_cons, not_or]
          exact ⟨Ne.symm hc.1, hrest⟩

theorem newline_notMem_cstr (input : Text) : '\n' ∉ (cstr (getcmd input)).dropLast := by
  obtain ⟨rest, hrest⟩ : cstr (getcmd input) <+: getcmd input := List.takeWhile_prefix _
  intro h
  cases hr : rest with
  | nil =>
    rw [hr, List.append_nil] at hrest
    rw [hrest] at h
    exact newline_notMem_gets 99 input h
  | cons d rest' =>
    refine newline_notMem_gets 99 input ?_
    have : (cstr (getcmd input) ++ rest).dropLast = cstr (getcmd input) ++ rest.dropLast :=
      List.dropLast_append_of_ne_nil (by simp [hr])
    show _ ∈ (getcmd input).dropLast
    rw [← hrest, this]
    exact List.mem_append_left _ (List.mem_of_mem_dropLast h)

/-- The word is what is copied if the line has a newline, and one character more if it has none. -/
theorem word_eq {buf : Text} {start : Nat} (hb : '\n' ∉ (cstr buf).dropLast)
    (hs : '\n' ∉ (cstr buf).take start) :
    word buf start = if '\n' ∈ cstr buf then ((cstr buf).drop start).dropLast
      else (cstr buf).drop start := by
  unfold word
  have hsplit : '\n' ∈ cstr buf ↔ '\n' ∈ (cstr buf).drop start := by
    conv_lhs => rw [← List.take_append_drop start (cstr buf)]
    rw [List.mem_append, or_iff_right hs]
  have hlast : '\n' ∉ ((cstr buf).drop start).dropLast := by
    rw [List.dropLast_drop_eq_drop_dropLast]
    exact fun h => hb (List.mem_of_mem_drop h)
  simp only [hsplit]
  generalize (cstr buf).drop start = r at hlast
  have hall : ∀ {v : Text}, '\n' ∉ v → v.takeWhile (fun c => decide (c ≠ '\n')) = v := by
    intro v hv
    rw [List.takeWhile_eq_self_iff]
    intro c hc
    have hne : c ≠ '\n' := fun he => hv (he ▸ hc)
    simpa using hne
  split
  next hr =>
    have hne : r ≠ [] := List.ne_nil_of_mem hr
    have hr' := List.dropLast_append_getLast hne
    have hnl : r.getLast hne = '\n' := by
      rw [← hr', List.mem_append, or_iff_right hlast] at hr
      exact (List.mem_singleton.mp hr).symm
    rw [hnl] at hr'
    conv_lhs => rw [← hr']
    rw [List.takeWhile_append, hall hlast, if_pos rfl]
    simp
  next hr => exact hall hr

theorem dropLast_ne {i : Nat} (h : (syscallNames[i]?).map String.toList = some u) :
    u.dropLast ≠ u := by
  have hnames : ∀ name ∈ syscallNames, name.toList ≠ [] := by decide
  obtain ⟨name, hname, rfl⟩ := Option.map_eq_some_iff.mp h
  have hne := hnames name (List.mem_of_getElem? hname)
  intro he
  have hlen := congrArg List.length he
  have hpos := List.length_pos_iff.mpr hne
  rw [List.length_dropLast] at hlen
  omega

/-- A line with one of the option forms is parsed as it reads exactly if its word fits, and a line
without newline only if nothing depends on the character that it loses. -/
theorem parse_right_iff (input : Text) (form : String) (hform : form ∈ forms)
    (hl : looking (getcmd input) form = true) :
    Right (getcmd input) form.toList.length ↔ Fits (getcmd input) form.toList.length := by
  have hclean : ∀ form ∈ forms, '\n' ∉ form.toList ∧ nul ∉ form.toList := by decide
  obtain ⟨hnl, hnul⟩ := hclean form hform
  have hb := newline_notMem_cstr input
  generalize getcmd input = buf at hl hb
  have htake : (cstr buf).take form.toList.length = form.toList := by
    obtain ⟨rest, rfl⟩ := List.isPrefixOf_iff_prefix.mp hl
    have hcstr : cstr (form.toList ++ rest) = form.toList ++ cstr rest := by
      unfold cstr
      rw [List.takeWhile_append_of_pos]
      intro c hc
      have hne : c ≠ nul := fun he => hnul (he ▸ hc)
      simpa using hne
    rw [hcstr, List.take_left]
  have hw := word_eq hb (htake.symm ▸ hnl)
  generalize form.toList.length = start at hw
  unfold Right Fits
  split_ifs at hw with hline
  · rw [if_pos hline]
    simp only [parse_iff hw.symm]
    constructor
    · rintro ⟨r, ⟨hlen, _⟩, _⟩
      exact hlen
    · intro hlen
      exact ⟨_, ⟨hlen, isIndex_foldl _⟩, isIndex_foldl _⟩
  · rw [if_neg hline]
    have hcopied : ((cstr buf).drop start).dropLast = (word buf start).dropLast := by rw [hw]
    simp only [parse_iff hcopied, List.length_dropLast]
    constructor
    · rintro ⟨r, ⟨hlen, hr⟩, hr'⟩
      refine ⟨by omega, fun hm => ?_, fun hm => ?_⟩
      · obtain ⟨i, hi⟩ := mem_names_iff.mp hm
        have hd := (hr.1 i).mp ((hr'.1 i).mpr hi)
        exact dropLast_ne hi (Option.some.inj (hd.symm.trans hi))
      · obtain ⟨i, hi⟩ := mem_names_iff.mp hm
        have hd := (hr'.1 i).mp ((hr.1 i).mpr hi)
        exact dropLast_ne hd (Option.some.inj (hi.symm.trans hd))
    · rintro ⟨hlen, hm, hm'⟩
      exact ⟨-1, ⟨by omega, isIndex_of_notMem hm'⟩, isIndex_of_notMem hm⟩

theorem parse_right_iff_fork : Right (getcmd "strace -e fork\n".toList) 10 :=
  (parse_right_iff "strace -e fork\n".toList "strace -e " (by decide) (by decide)).mpr (by decide)

/-- Twenty-one characters leave the array, and without a newline fork is read as for. -/
theorem parse_wrong :
    parse (getcmd "strace -e abcdefghijklmnopqrstu\n".toList) 10 = none ∧
    word (getcmd "strace -e fork".toList) 10 = "fork".toList ∧
      parse (getcmd "strace -e fork".toList) 10 = some (-1) ∧
    word (getcmd "strace -s -e reads".toList) 13 = "reads".toList ∧
    parse (getcmd "strace -s -e reads".toList) 13 = some 4 := by
  decide +kernel

end SyscallCmd

end Xv6
