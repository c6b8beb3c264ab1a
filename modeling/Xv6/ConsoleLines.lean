import Xv6.Console

namespace Xv6

open Bytes

namespace Input

/-- The committed characters are the first ones in the ring, which has room for all. -/
structure Bounded (i : Input) : Prop where
  le : (i.w - i.r).toNat ≤ (i.e - i.r).toNat
  cap : (i.e - i.r).toNat ≤ INPUT_BUF

variable {i : Input} {c : Byte}

theorem Bounded.lt (h : i.Bounded) (hne : i.e ≠ i.w) : (i.w - i.r).toNat < (i.e - i.r).toNat := by
  refine lt_of_le_of_ne h.le fun he => hne ?_
  have hsub := BitVec.eq_of_toNat_eq he
  have hsum := congrArg (· + i.r) hsub
  simpa using hsum.symm

theorem erase_keeps (h : i.Bounded) (hne : i.e ≠ i.w) :
    i.erase.Bounded ∧ i.erase.pending = i.pending := by
  have hlt := h.lt hne
  have hcap := h.cap
  have hpos : 0 < i.ring.count := Nat.lt_of_le_of_lt (Nat.zero_le _) hlt
  have hcount : (i.erase.e - i.erase.r).toNat + 1 = (i.e - i.r).toNat :=
    RingBuffer.count_unpush (r := i.ring) hpos
  have hw : (i.erase.w - i.erase.r).toNat = (i.w - i.r).toNat := rfl
  refine ⟨⟨by omega, by omega⟩, ?_⟩
  have hcontents : i.erase.ring.contents = i.ring.contents.take (i.ring.count - 1) :=
    RingBuffer.contents_unpush hpos
  have hring : i.ring.count = (i.e - i.r).toNat := rfl
  rw [pending, pending, hcontents, List.take_take, hw, Nat.min_eq_left (by omega)]

theorem killLine_keeps (h : i.Bounded) (k : Nat) :
    (i.killLine k).Bounded ∧ (i.killLine k).pending = i.pending := by
  induction k generalizing i with
  | zero => exact ⟨h, rfl⟩
  | succ k ih =>
    unfold killLine
    split
    next hc =>
      obtain ⟨hb, hp⟩ := erase_keeps h hc.1
      obtain ⟨hb', hp'⟩ := ih hb
      exact ⟨hb', hp'.trans hp⟩
    next => exact ⟨h, rfl⟩

theorem erase_distance (hne : i.e ≠ i.w) :
    (i.erase.e - i.erase.w).toNat + 1 = (i.e - i.w).toNat := by
  have hpos : 0 < (⟨i.buf, i.w, i.e⟩ : RingBuffer INPUT_BUF 32 Byte).count := by
    rw [Nat.pos_iff_ne_zero, Ne, RingBuffer.count_eq_zero]
    exact fun he => hne he.symm
  exact RingBuffer.count_unpush (r := ⟨i.buf, i.w, i.e⟩) hpos

/-- The passes that killLine may make are enough for it to end at the line's start. -/
theorem killLine_ends (k : Nat) (hk : (i.e - i.w).toNat ≤ k) :
    (i.killLine k).e = (i.killLine k).w ∨
      (i.killLine k).buf (RingBuffer.slot ((i.killLine k).e - 1).toNat) = newline := by
  induction k generalizing i with
  | zero =>
    have hcount : (⟨i.buf, i.w, i.e⟩ : RingBuffer INPUT_BUF 32 Byte).count = 0 := Nat.le_zero.mp hk
    exact .inl (RingBuffer.count_eq_zero.mp hcount).symm
  | succ k ih =>
    unfold killLine
    split
    next hc =>
      have := erase_distance hc.1
      exact ih (by omega)
    next hc =>
      by_cases he : i.e = i.w
      · exact .inl he
      · exact .inr (not_not.mp fun hn => hc ⟨he, hn⟩)

theorem store_ring : (i.store c).ring = i.ring.push c := rfl

theorem store_bounds (hroom : (i.e - i.r).toNat < INPUT_BUF) :
    ((i.store c).e - (i.store c).r).toNat = (i.e - i.r).toNat + 1 :=
  RingBuffer.count_push (r := i.ring) (a := c) hroom (by decide)

theorem store_keeps (h : i.Bounded) (hroom : (i.e - i.r).toNat < INPUT_BUF) :
    (i.store c).Bounded ∧ (i.store c).pending = i.pending := by
  have hle := h.le
  have hbounds := store_bounds (c := c) hroom
  have hw : ((i.store c).w - (i.store c).r).toNat = (i.w - i.r).toNat := rfl
  have hlen : i.ring.contents.length = (i.e - i.r).toNat := RingBuffer.contents_length
  have hpush : (i.ring.push c).contents = i.ring.contents ++ [c] :=
    RingBuffer.contents_push (r := i.ring) hroom (by decide) (by decide)
  refine ⟨⟨by omega, by omega⟩, ?_⟩
  rw [pending, pending, hw, store_ring, hpush, List.take_append_of_le_length (by omega)]

theorem commit_keeps (h : i.Bounded) : ({ i with w := i.e } : Input).Bounded ∧
    i.pending <+: ({ i with w := i.e } : Input).pending := by
  refine ⟨⟨Nat.le_refl _, h.cap⟩, ?_⟩
  exact List.take_prefix_take_left h.le

theorem typeChar_keeps (h : i.Bounded) :
    (i.typeChar c).1.Bounded ∧ i.pending <+: (i.typeChar c).1.pending := by
  unfold typeChar
  split
  next hc =>
    generalize (if c = cr then newline else c) = d
    obtain ⟨hb, hp⟩ := store_keeps (c := d) h hc.2
    dsimp only
    split
    · obtain ⟨hb', hp'⟩ := commit_keeps hb
      exact ⟨hb', hp ▸ hp'⟩
    · exact ⟨hb, by rw [hp]⟩
  next => exact ⟨h, List.prefix_rfl⟩

/-- Whatever is typed, the characters committed so far stay, and at most some are added behind them.
-/
theorem intr_keeps (h : i.Bounded) : (i.intr c).1.Bounded ∧ i.pending <+: (i.intr c).1.pending := by
  unfold intr
  split
  next => exact ⟨h, List.prefix_rfl⟩
  next =>
    split
    next =>
      obtain ⟨hb, hp⟩ := killLine_keeps h (i.e - i.w).toNat
      exact ⟨hb, by rw [hp]⟩
    next =>
      split
      next =>
        dsimp only
        split
        next hne =>
          obtain ⟨hb, hp⟩ := erase_keeps h hne
          exact ⟨hb, by rw [hp]⟩
        next => exact ⟨h, List.prefix_rfl⟩
      next => exact typeChar_keeps h

theorem distance_next {a b : BitVec 32} (h : a ≠ b) : (b - (a + 1)).toNat + 1 = (b - a).toNat := by
  have hpos : 0 < (⟨fun _ => 0, a, b⟩ : RingBuffer INPUT_BUF 32 Byte).count := by
    rw [Nat.pos_iff_ne_zero, Ne, RingBuffer.count_eq_zero]
    exact h
  have hpop := RingBuffer.count_pop hpos
  simpa only [RingBuffer.count, RingBuffer.pop] using hpop

theorem take_keeps (h : i.Bounded) (hne : i.r ≠ i.w) : ({ i with r := i.r + 1 } : Input).Bounded ∧
    i.pending = i.buf (RingBuffer.slot i.r.toNat) :: ({ i with r := i.r + 1 } : Input).pending := by
  have hw := distance_next hne
  have hle := h.le
  have hcap := h.cap
  have hepos : 0 < i.ring.count := by
    show 0 < (i.e - i.r).toNat
    omega
  have hre : i.r ≠ i.e := by
    intro he
    have hzero : (i.e - i.r).toNat = 0 := by simp [he]
    omega
  have he := distance_next hre
  refine ⟨⟨?_, ?_⟩, ?_⟩
  · show (i.w - (i.r + 1)).toNat ≤ (i.e - (i.r + 1)).toNat
    omega
  · show (i.e - (i.r + 1)).toNat ≤ INPUT_BUF
    omega
  · have hcontents := RingBuffer.contents_pop hepos (by decide)
    unfold pending
    rw [hcontents, ← hw, List.take_succ_cons]
    rfl

end Input

namespace Console

variable {P : Type} [DecidableEq P] {s u : Console P} {p q : P}

/-- What a call in progress has done. -/
structure CallOk (s : Console P) (c : ReadCall) : Prop where
  begun : c.id < s.calls
  taken : s.takenBy c.id = c.dst
  rest : c.dst.length + c.n = c.target
  noEof : Input.ctrlD ∉ c.dst
  noNewline : Input.newline ∉ c.dst
  running : ∀ e ∈ s.results, e.1.id ≠ c.id

/-- What a call that has ended has returned: the characters it took, none of them ^D, up to a
newline at most; or nothing, because a ^D came first; or -1, to a process that has been killed. -/
structure ResultOk (s : Console P) (c : ReadCall) (ok : Bool) : Prop where
  begun : c.id < s.calls
  count : c.dst.length + c.n = c.target
  noEof : Input.ctrlD ∉ c.dst
  oneLine : Input.newline ∉ c.dst.dropLast
  bytes : c.dst ≠ [] ∨ ok = false → s.takenBy c.id = c.dst
  eof : c.dst = [] → ok = true → s.takenBy c.id = [Input.ctrlD]

structure Discipline (s : Console P) : Prop where
  bounded : s.input.Bounded
  stream : s.committed = s.taken.map Prod.snd ++ s.input.pending
  results : ∀ e ∈ s.results, s.ResultOk e.1 e.2
  once : (s.results.map fun e => e.1.id).Nodup
  eofOnce : ∀ k, (k, Input.ctrlD) ∈ s.taken →
    ∃ e ∈ s.results, e.1.id = k ∧ e.1.dst = [] ∧ e.2 = true

structure Inv (s : Console P) : Prop extends s.Discipline where
  callOk : ∀ p c, (s.pc p).call = some c → s.CallOk c
  own : ∀ p q c d, (s.pc p).call = some c → (s.pc q).call = some d → c.id = d.id → p = q
  past : ∀ e ∈ s.taken, e.1 < s.calls
  positive : ∀ p c, (s.pc p).call = some c → 0 < c.target

omit [DecidableEq P] in
theorem boot_inv : (boot : Console P).Inv where
  bounded := ⟨Nat.le_refl _, by simp [boot]⟩
  stream := by simp [boot, Input.pending, Input.ring, RingBuffer.contents, RingBuffer.count]
  results := by simp [boot]
  once := by simp [boot]
  eofOnce := by simp [boot]
  callOk := by simp [boot, ReadPc.call]
  own := by simp [boot, ReadPc.call]
  past := by simp [boot]
  positive := by simp [boot, ReadPc.call]

omit [DecidableEq P] in
theorem call_wake (c : ReadPc) : c.wake.call = c.call := by
  cases c <;> rfl

omit [DecidableEq P] in
theorem Inv.of_same (h : s.Inv) (hb : u.input.Bounded)
    (hs : u.committed = s.taken.map Prod.snd ++ u.input.pending) (hcalls : u.calls = s.calls)
    (htaken : u.taken = s.taken) (hresults : u.results = s.results)
    (hpc : ∀ q, (u.pc q).call = (s.pc q).call) : u.Inv where
  bounded := hb
  stream := by rw [hs, htaken]
  results e he := by
    rw [hresults] at he
    obtain ⟨h1, h2, h3, h4, h5, h6⟩ := h.results e he
    exact ⟨hcalls ▸ h1, h2, h3, h4, by simpa only [takenBy, htaken] using h5,
      by simpa only [takenBy, htaken] using h6⟩
  once := hresults ▸ h.once
  eofOnce := by
    rw [htaken, hresults]
    exact h.eofOnce
  callOk q c hq := by
    obtain ⟨h1, h2, h3, h4, h5, h6⟩ := h.callOk q c (hpc q ▸ hq)
    exact ⟨hcalls ▸ h1, by simpa only [takenBy, htaken] using h2, h3, h4, h5, hresults ▸ h6⟩
  own p q c d hp hq := h.own p q c d (hpc p ▸ hp) (hpc q ▸ hq)
  past := by
    rw [htaken, hcalls]
    exact h.past
  positive q c hq := h.positive q c (hpc q ▸ hq)

/-- A call takes the next characters, at most one at a time, and goes on or ends. -/
structure Took (s t : Console P) (c : ReadCall) (more : List Byte) : Prop where
  bounded : t.input.Bounded
  stream : t.committed = t.taken.map Prod.snd ++ t.input.pending
  taken : t.taken = s.taken ++ more.map fun ch => (c.id, ch)
  calls : t.calls = s.calls
  results : t.results = s.results
  pc : t.pc = s.pc

variable {t : Console P} {c d : ReadCall} {more : List Byte}

omit [DecidableEq P] in
theorem Took.none (h : s.Inv) : s.Took s c [] :=
  ⟨h.bounded, h.stream, by simp, rfl, rfl, rfl⟩

omit [DecidableEq P] in
theorem take_took (h : s.Inv) (hne : s.input.r ≠ s.input.w) :
    s.Took (s.take c (s.input.buf (RingBuffer.slot s.input.r.toNat))) c
      [s.input.buf (RingBuffer.slot s.input.r.toNat)] := by
  obtain ⟨hb, hp⟩ := Input.take_keeps h.bounded hne
  refine ⟨hb, ?_, rfl, rfl, rfl, rfl⟩
  show s.committed = (s.taken ++ [(c.id, _)]).map Prod.snd ++ _
  rw [h.stream, hp, List.map_append, List.append_assoc]
  rfl

omit [DecidableEq P] in
theorem Took.takenBy (h : s.Took t c more) (k : Nat) :
    t.takenBy k = s.takenBy k ++ if k = c.id then more else [] := by
  rw [Console.takenBy, h.taken, List.filter_append, List.map_append, Console.takenBy]
  congr 1
  split
  next hk =>
    subst hk
    have hfilter : (more.map fun ch => (c.id, ch)).filter (fun e => decide (e.1 = c.id)) =
        more.map fun ch => (c.id, ch) := by
      apply List.filter_eq_self.mpr
      intro e he
      obtain ⟨ch, _, rfl⟩ := List.mem_map.mp he
      simp
    rw [hfilter, List.map_map]
    simp [Function.comp_def]
  next hk =>
    have hfilter : (more.map fun ch => (c.id, ch)).filter (fun e => decide (e.1 = k)) = [] := by
      apply List.filter_eq_nil_iff.mpr
      intro e he
      obtain ⟨ch, _, rfl⟩ := List.mem_map.mp he
      simpa using Ne.symm hk
    simp [hfilter]

omit [DecidableEq P] in
theorem Took.callOk (ht : s.Took t c more) (hd : s.CallOk d) (hne : d.id ≠ c.id) : t.CallOk d where
  begun := ht.calls ▸ hd.begun
  taken := by simpa [ht.takenBy, hne] using hd.taken
  rest := hd.rest
  noEof := hd.noEof
  noNewline := hd.noNewline
  running := ht.results ▸ hd.running

omit [DecidableEq P] in
theorem Took.resultOk (ht : s.Took t c more) (h : s.Inv) (hp : (s.pc p).call = some c)
    {e : ReadCall × Bool} (he : e ∈ s.results) : t.ResultOk e.1 e.2 := by
  have hne : e.1.id ≠ c.id := (h.callOk p c hp).running e he
  obtain ⟨h1, h2, h3, h4, h5, h6⟩ := h.results e he
  exact ⟨ht.calls ▸ h1, h2, h3, h4, by simpa [ht.takenBy, hne] using h5,
    by simpa [ht.takenBy, hne] using h6⟩

omit [DecidableEq P] in
theorem Took.past (ht : s.Took t c more) (h : s.Inv) (hp : (s.pc p).call = some c) :
    ∀ e ∈ t.taken, e.1 < t.calls := by
  intro e he
  rw [ht.taken] at he
  rw [ht.calls]
  rcases List.mem_append.mp he with he | he
  · exact h.past e he
  · obtain ⟨ch, _, rfl⟩ := List.mem_map.mp he
    exact (h.callOk p c hp).begun

theorem Took.ended (ht : s.Took t c more) (h : s.Inv) (hp : (s.pc p).call = some c) {ok : Bool}
    (hid : d.id = c.id) (hd : t.ResultOk d ok)
    (heof : Input.ctrlD ∈ more → d.dst = [] ∧ ok = true) :
    (t.finish p d ok).Inv := by
  have hother : ∀ q e, ((t.finish p d ok).pc q).call = some e → q ≠ p ∧ (s.pc q).call = some e := by
    intro q e hq
    have hqp : q ≠ p := by
      rintro rfl
      simp [finish, setPc, ReadPc.call] at hq
    refine ⟨hqp, ?_⟩
    simpa [finish, setPc, Function.update_of_ne hqp, ht.pc] using hq
  have hne : ∀ q e, ((t.finish p d ok).pc q).call = some e → e.id ≠ c.id := by
    intro q e hq he
    obtain ⟨hqp, hq⟩ := hother q e hq
    exact hqp (h.own q p e c hq hp he)
  have hmem : ∀ e, e ∈ (t.finish p d ok).results ↔ e ∈ s.results ∨ e = (d, ok) := by
    intro e
    show e ∈ t.results ++ [(d, ok)] ↔ _
    rw [ht.results, List.mem_append, List.mem_singleton]
  refine ⟨⟨ht.bounded, ht.stream, ?_, ?_, ?_⟩, ?_, ?_, ht.past h hp, ?_⟩
  · intro e he
    rcases (hmem e).mp he with he | rfl
    · obtain ⟨h1, h2, h3, h4, h5, h6⟩ := ht.resultOk h hp he
      exact ⟨h1, h2, h3, h4, h5, h6⟩
    · obtain ⟨h1, h2, h3, h4, h5, h6⟩ := hd
      exact ⟨h1, h2, h3, h4, h5, h6⟩
  · show ((t.results ++ [(d, ok)]).map fun e => e.1.id).Nodup
    rw [ht.results, List.map_append, List.nodup_append]
    refine ⟨h.once, by simp, ?_⟩
    intro a ha b hb hab
    obtain ⟨e, he, rfl⟩ := List.mem_map.mp ha
    have hb : b = d.id := by simpa using hb
    exact (h.callOk p c hp).running e he (by rw [hab, hb, hid])
  · intro k hk
    have hk : (k, Input.ctrlD) ∈ t.taken := hk
    rw [ht.taken] at hk
    rcases List.mem_append.mp hk with hk | hk
    · obtain ⟨e, he, h1⟩ := h.eofOnce k hk
      exact ⟨e, (hmem e).mpr (.inl he), h1⟩
    · obtain ⟨ch, hch, he⟩ := List.mem_map.mp hk
      cases he
      obtain ⟨hdst, hok⟩ := heof hch
      exact ⟨(d, ok), (hmem _).mpr (.inr rfl), hid, hdst, hok⟩
  · intro q e hq
    obtain ⟨h1, h2, h3, h4, h5, h6⟩ := ht.callOk (h.callOk q e (hother q e hq).2) (hne q e hq)
    refine ⟨h1, h2, h3, h4, h5, ?_⟩
    intro x hx
    rcases (hmem x).mp hx with hx | rfl
    · exact h6 x (ht.results ▸ hx)
    · exact fun he => hne q e hq (he.symm.trans hid)
  · intro q r e f hq hr he
    exact h.own q r e f (hother q e hq).2 (hother r f hr).2 he
  · intro q e hq
    exact h.positive q e (hother q e hq).2

theorem Took.continued (ht : s.Took t c more) (h : s.Inv) (hp : (s.pc p).call = some c)
    (hid : d.id = c.id) (htarget : d.target = c.target) (hd : t.CallOk d)
    (hmore : Input.ctrlD ∉ more) :
    (t.setPc p (.loop d)).Inv := by
  have hcases : ∀ q e, ((t.setPc p (.loop d)).pc q).call = some e →
      (q = p ∧ e = d) ∨ (q ≠ p ∧ (s.pc q).call = some e) := by
    intro q e hq
    by_cases hqp : q = p
    · subst hqp
      refine .inl ⟨rfl, ?_⟩
      simpa [setPc, ReadPc.call, eq_comm] using hq
    · exact .inr ⟨hqp, by simpa [setPc, Function.update_of_ne hqp, ht.pc] using hq⟩
  refine ⟨⟨ht.bounded, ht.stream, ?_, ?_, ?_⟩, ?_, ?_, ht.past h hp, ?_⟩
  · intro e he
    obtain ⟨h1, h2, h3, h4, h5, h6⟩ := ht.resultOk h hp (ht.results ▸ he)
    exact ⟨h1, h2, h3, h4, h5, h6⟩
  · show (t.results.map fun e => e.1.id).Nodup
    rw [ht.results]
    exact h.once
  · intro k hk
    have hk : (k, Input.ctrlD) ∈ t.taken := hk
    rw [ht.taken] at hk
    show ∃ e ∈ t.results, _
    rw [ht.results]
    rcases List.mem_append.mp hk with hk | hk
    · exact h.eofOnce k hk
    · obtain ⟨ch, hch, he⟩ := List.mem_map.mp hk
      cases he
      exact absurd hch hmore
  · intro q e hq
    rcases hcases q e hq with ⟨_, rfl⟩ | ⟨hqp, hq⟩
    · obtain ⟨h1, h2, h3, h4, h5, h6⟩ := hd
      exact ⟨h1, h2, h3, h4, h5, h6⟩
    · have hne : e.id ≠ c.id := fun he => hqp (h.own q p e c hq hp he)
      obtain ⟨h1, h2, h3, h4, h5, h6⟩ := ht.callOk (h.callOk q e hq) hne
      exact ⟨h1, h2, h3, h4, h5, h6⟩
  · intro q r e f hq hr he
    rcases hcases q e hq with ⟨hqp, rfl⟩ | ⟨hqp, hq'⟩ <;>
      rcases hcases r f hr with ⟨hrp, rfl⟩ | ⟨hrp, hr'⟩
    · rw [hqp, hrp]
    · exact hqp.trans (h.own p r c f hp hr' (hid.symm.trans he))
    · exact (h.own q p e c hq' hp (he.trans hid)).trans hrp.symm
    · exact h.own q r e f hq' hr' he
  · intro q e hq
    rcases hcases q e hq with ⟨_, rfl⟩ | ⟨_, hq⟩
    · rw [htarget]
      exact h.positive p c hp
    · exact h.positive q e hq

omit [DecidableEq P] in
theorem CallOk.resultOk (h : s.CallOk c) {ok : Bool} (hok : c.dst ≠ [] ∨ ok = false) :
    s.ResultOk c ok where
  begun := h.begun
  count := h.rest
  noEof := h.noEof
  oneLine hm := h.noNewline (List.mem_of_mem_dropLast hm)
  bytes _ := h.taken
  eof hdst htrue := by
    rcases hok with hok | hok
    · exact absurd hdst hok
    · simp [hok] at htrue

theorem readStep_inv (h : s.Inv) (hpc : s.pc p = .loop c) : (s.readStep p c).Inv := by
  have hp : (s.pc p).call = some c := by rw [hpc]; rfl
  have hc := h.callOk p c hp
  have htarget := h.positive p c hp
  have hrest := hc.rest
  unfold readStep
  split
  next hn =>
    refine (Took.none h).ended h hp rfl (hc.resultOk (.inl ?_)) (by simp)
    intro hdst
    rw [hdst] at hrest
    simp at hrest
    omega
  next n hn =>
    split
    next =>
      split
      next => exact (Took.none h).ended h hp rfl (hc.resultOk (.inr rfl)) (by simp)
      next =>
        refine h.of_same h.bounded h.stream rfl rfl rfl fun q => ?_
        by_cases hq : q = p
        · subst hq
          simp [setPc, hpc, ReadPc.call]
        · simp [setPc, Function.update_of_ne hq]
    next hne =>
      have htook := take_took (c := c) h hne
      generalize hch : s.input.buf (RingBuffer.slot s.input.r.toNat) = ch at htook
      dsimp only
      have htaken : (s.take c ch).takenBy c.id = c.dst ++ [ch] := by
        rw [htook.takenBy, if_pos rfl, hc.taken]
      split
      next hd =>
        split
        next hlt =>
          have hsame : s.input.r + 1 - 1 = s.input.r := by simp
          rw [hsame]
          refine (Took.none h).ended h hp rfl (hc.resultOk (.inl ?_)) (by simp)
          intro hdst
          rw [hdst] at hrest
          simp at hrest
          omega
        next hlt =>
          have hdst : c.dst = [] := List.length_eq_zero_iff.mp (by omega)
          refine htook.ended h hp rfl ⟨hc.begun, hrest, hc.noEof, by simp [hdst], ?_, ?_⟩ fun _ => ⟨hdst, rfl⟩
          · rintro (hne | hfalse)
            · exact absurd hdst hne
            · simp at hfalse
          · intro _ _
            rw [htaken, hdst, hd]
            rfl
      next hd =>
        have hnoEof : Input.ctrlD ∉ c.dst ++ [ch] := by
          simp only [List.mem_append, List.mem_singleton, not_or]
          exact ⟨hc.noEof, fun he => hd he.symm⟩
        have hlen : (c.dst ++ [ch]).length + n = c.target := by
          rw [List.length_append, List.length_singleton]
          omega
        split
        next =>
          refine htook.ended h hp rfl ⟨hc.begun, hlen, hnoEof, ?_, ?_, ?_⟩ fun he => ?_
          · simpa using hc.noNewline
          · exact fun _ => htaken
          · intro hnil
            simp at hnil
          · exact absurd (List.mem_singleton.mp he).symm hd
        next hnl =>
          refine htook.continued h hp rfl rfl ⟨hc.begun, htaken, hlen, hnoEof, ?_, hc.running⟩ ?_
          · simp only [List.mem_append, List.mem_singleton, not_or]
            exact ⟨hc.noNewline, fun he => hnl he.symm⟩
          · exact fun he => hd (List.mem_singleton.mp he).symm

theorem char_inv (h : s.Inv) {ch : Byte} (hu : s.step (.char ch) = some u) : u.Inv := by
  obtain ⟨_, rfl⟩ := Runs.of_guard hu
  obtain ⟨hb, hprefix⟩ := Input.intr_keeps (c := ch) h.bounded
  refine h.of_same hb ?_ rfl rfl rfl fun q => ?_
  · dsimp only
    obtain ⟨more, hmore⟩ := hprefix
    rw [h.stream, ← hmore, List.drop_left, List.append_assoc]
  · dsimp only
    split
    · exact call_wake _
    · rfl

theorem read_inv (h : s.Inv) {n : Nat} (hu : s.step (.read p n) = some u) : u.Inv := by
  simp only [step] at hu
  split at hu
  next hpc =>
    obtain ⟨hn, rfl⟩ := Runs.of_guard hu
    have hcases : ∀ q c, (Function.update s.pc p (.acquire ⟨s.calls, n, n, []⟩) q).call = some c →
        (q = p ∧ c = ⟨s.calls, n, n, []⟩) ∨ (q ≠ p ∧ (s.pc q).call = some c) := by
      intro q c hq
      by_cases hqp : q = p
      · subst hqp
        refine .inl ⟨rfl, ?_⟩
        simpa [ReadPc.call, eq_comm] using hq
      · exact .inr ⟨hqp, by simpa [Function.update_of_ne hqp] using hq⟩
    have hnone : s.takenBy s.calls = [] := by
      have hfilter : s.taken.filter (fun e => decide (e.1 = s.calls)) = [] := by
        apply List.filter_eq_nil_iff.mpr
        intro e he
        have := h.past e he
        simp only [decide_eq_true_eq]
        omega
      rw [takenBy, hfilter]
      rfl
    refine ⟨⟨h.bounded, h.stream, ?_, h.once, h.eofOnce⟩, ?_, ?_, ?_, ?_⟩
    · intro e he
      obtain ⟨h1, h2, h3, h4, h5, h6⟩ := h.results e he
      exact ⟨Nat.lt_succ_of_lt h1, h2, h3, h4, h5, h6⟩
    · intro q c hq
      rcases hcases q c hq with ⟨_, rfl⟩ | ⟨_, hq⟩
      · refine ⟨Nat.lt_succ_self _, hnone, by simp, by simp, by simp, fun e he hid => ?_⟩
        have hlt : e.1.id < s.calls := (h.results e he).begun
        exact absurd (hid ▸ hlt) (Nat.lt_irrefl _)
      · obtain ⟨h1, h2, h3, h4, h5, h6⟩ := h.callOk q c hq
        exact ⟨Nat.lt_succ_of_lt h1, h2, h3, h4, h5, h6⟩
    · intro q r c d hq hr hid
      rcases hcases q c hq with ⟨hqp, rfl⟩ | ⟨hqp, hq'⟩ <;> rcases hcases r d hr with ⟨hrp, rfl⟩ | ⟨hrp, hr'⟩
      · rw [hqp, hrp]
      · exact absurd (hid ▸ (h.callOk r d hr').begun) (Nat.lt_irrefl _)
      · exact absurd (hid ▸ (h.callOk q c hq').begun) (Nat.lt_irrefl _)
      · exact h.own q r c d hq' hr' hid
    · exact fun e he => Nat.lt_succ_of_lt (h.past e he)
    · intro q c hq
      rcases hcases q c hq with ⟨_, rfl⟩ | ⟨_, hq⟩
      · exact hn
      · exact h.positive q c hq
  next => simp at hu

theorem step_inv {e : ConsoleEvent P} (h : s.Inv) (hu : s.step e = some u) : u.Inv := by
  have hsame : ∀ p q c, c.call = (s.pc p).call → ((s.setPc p c).pc q).call = (s.pc q).call := by
    intro p q c hc
    by_cases hq : q = p
    · subst hq
      simp [setPc, hc]
    · simp [setPc, Function.update_of_ne hq]
  cases e with
  | intr =>
    obtain ⟨_, rfl⟩ := Runs.of_guard hu
    exact h.of_same h.bounded h.stream rfl rfl rfl fun _ => rfl
  | char ch => exact char_inv h hu
  | intrDone =>
    obtain ⟨_, rfl⟩ := Runs.of_guard hu
    exact h.of_same h.bounded h.stream rfl rfl rfl fun _ => rfl
  | read p n => exact read_inv h hu
  | acquire p =>
    simp only [step] at hu
    split at hu
    next c hpc =>
      obtain ⟨_, rfl⟩ := Runs.of_guard hu
      exact h.of_same h.bounded h.stream rfl rfl rfl fun q => hsame p q _ (by rw [hpc]; rfl)
    next => simp at hu
  | step p =>
    simp only [step] at hu
    split at hu
    next c hpc =>
      cases Option.some.inj hu
      exact readStep_inv h hpc
    next => simp at hu
  | kill p =>
    cases Option.some.inj hu
    exact h.of_same h.bounded h.stream rfl rfl rfl fun q => hsame p q _ (call_wake _)

end Console

end Xv6
