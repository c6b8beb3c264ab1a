import Xv6.Ide

namespace Xv6

namespace Ide

variable {P B : Type} [DecidableEq P] [DecidableEq B] [Fintype B] {m : MemDisk B} {s t : Ide P B}
  {q : List B} {p : P}
  {b : B}

/-- The requests in the queue that the disk has not executed: the first one may have been. -/
def unexecuted (s : Ide P B) (q : List B) : List B :=
  match s.device with
  | .done _ => q.tail
  | _ => q

/-- The buffers once the interrupt has been handled, if there is one. -/
def settled (s : Ide P B) (q : List B) : B → Buf :=
  match s.device, q with
  | .done data, h :: _ => Function.update s.buf h (complete (s.buf h) data)
  | _, _ => s.buf

/-- The disk works on the first request of the queue. -/
def DeviceOk (s : Ide P B) (q : List B) : Prop :=
  match s.device with
  | .ready => q = []
  | .busy c => ∃ h rest, q = h :: rest ∧ c = s.command h
  | .done data => ∃ h rest, q = h :: rest ∧ s.call h ∈ s.executed.map Prod.fst ∧
      ((s.buf h).dirty = false → data = s.disk (s.buf h).addr)

/-- A request that the queue may hold. -/
structure Valid (v : Buf) : Prop where
  locked : v.locked = true
  pending : v.synced = false
  dev : v.addr.1 = 1
  blockno : v.addr.2 < FSSIZE

structure Inv (m : MemDisk B) (s : Ide P B) (q : List B) : Prop where
  linked : Linked s.qnext s.idequeue q
  nodup : q.Nodup
  queued : ∀ b ∈ q, Valid (s.buf b) ∧ ∃ p k, (s.pc p).waits = some (k, b)
  waits : ∀ p k b, (s.pc p).waits = some (k, b) → s.holder b = some p ∧
    ((b ∈ q ∧ s.call b = k) ∨ (b ∉ q ∧ (s.buf b).synced = true ∧ k ∈ s.executed.map Prod.fst))
  asleep : ∀ p k b, s.pc p = .asleep k b → b ∈ q
  device : s.DeviceOk q
  issued : s.issued = s.executed ++ (s.unexecuted q).map fun b => (s.call b, b)
  ids : s.issued.map Prod.fst = List.range s.calls
  returned : ∀ k ∈ s.returned, k ∈ s.executed.map Prod.fst
  requests : s.history.filterMap BufOp.request = s.executed.map Prod.snd
  synchronous : m.replay s.history = .ok ⟨s.disk, s.settled q⟩

omit [DecidableEq P] [Fintype B] in
theorem boot_inv (m : MemDisk B) : (boot m : Ide P B).Inv m [] where
  linked := trivial
  nodup := List.nodup_nil
  queued := by simp
  waits := by simp [boot, IdePc.waits]
  asleep := by simp [boot]
  device := rfl
  issued := rfl
  ids := rfl
  returned := by simp [boot]
  requests := rfl
  synchronous := rfl

omit [Fintype B] in
theorem replay_snoc {l : List (BufOp B)} {n : MemDisk B} (h : m.replay l = .ok n) (o : BufOp B) :
    m.replay (l ++ [o]) = n.apply o := by
  unfold MemDisk.replay at h ⊢
  rw [List.foldlM_append, h]
  cases hn : n.apply o <;> simp [hn, bind, Except.bind, pure, Except.pure]

omit [DecidableEq P] [Fintype B] in
theorem settled_update (hb : b ∉ q) (v : Buf) :
    ({ s with buf := Function.update s.buf b v } : Ide P B).settled q =
      Function.update (s.settled q) b v := by
  unfold settled
  dsimp only
  split
  next data h rest hdev =>
    have hne : h ≠ b := fun he => hb (by simp [he])
    rw [Function.update_of_ne hne, Function.update_comm hne]
  next => rfl

omit [DecidableEq P] [DecidableEq B] [Fintype B] in
theorem deviceOk_congr (h : s.DeviceOk q) (hdevice : t.device = s.device) (hdisk : t.disk = s.disk)
    (hexec : t.executed = s.executed) (hbuf : ∀ b ∈ q, t.buf b = s.buf b)
    (hcall : ∀ b ∈ q, t.call b = s.call b) :
    t.DeviceOk q := by
  unfold DeviceOk at h ⊢
  rw [hdevice]
  cases hd : s.device with
  | ready => simpa [hd] using h
  | busy c =>
    rw [hd] at h
    obtain ⟨x, rest, hq, hc⟩ := h
    have hx : x ∈ q := by simp [hq]
    refine ⟨x, rest, hq, ?_⟩
    rw [hc, command, command, hbuf x hx, hcall x hx]
  | done data =>
    rw [hd] at h
    obtain ⟨x, rest, hq, hmem, hdata⟩ := h
    have hx : x ∈ q := by simp [hq]
    refine ⟨x, rest, hq, ?_, ?_⟩
    · rw [hcall x hx, hexec]
      exact hmem
    · rw [hbuf x hx, hdisk]
      exact hdata

omit [DecidableEq P] [Fintype B] in
theorem Inv.store (h : s.Inv m q) (v : Buf) (holder : Option P)
    (hno : ∀ p k, (s.pc p).waits ≠ some (k, b)) :
    ({ s with
      holder := Function.update s.holder b holder
      buf := Function.update s.buf b v
      history := s.history ++ [.store b v] } : Ide P B).Inv m q := by
  have hb : b ∉ q := by
    intro hm
    obtain ⟨_, p, k, hw⟩ := h.queued b hm
    exact hno p k hw
  have hother : ∀ c ∈ q, c ≠ b := fun c hc he => hb (he ▸ hc)
  refine ⟨h.linked, h.nodup, ?_, ?_, h.asleep, ?_, h.issued, h.ids, h.returned, ?_, ?_⟩
  · intro c hc
    dsimp only
    rw [Function.update_of_ne (hother c hc)]
    exact h.queued c hc
  · intro p k c hw
    have hc : c ≠ b := by
      rintro rfl
      exact hno p k hw
    dsimp only
    rw [Function.update_of_ne hc, Function.update_of_ne hc]
    exact h.waits p k c hw
  · exact deviceOk_congr h.device rfl rfl rfl (fun c hc => Function.update_of_ne (hother c hc) _ _)
      fun _ _ => rfl
  · have hnone : [BufOp.store b v].filterMap BufOp.request = [] := rfl
    rw [List.filterMap_append, hnone, List.append_nil]
    exact h.requests
  · rw [replay_snoc h.synchronous]
    show Except.ok _ = Except.ok _
    congr 2
    exact (settled_update hb v).symm

omit [DecidableEq P] in
theorem enqueue_spec (hl : Linked s.qnext s.idequeue q) (hnodup : q.Nodup) (hb : b ∉ q) :
    ∃ t, s.enqueue b = some t ∧ Linked t.qnext t.idequeue (q ++ [b]) ∧
      t = { s with idequeue := t.idequeue, qnext := t.qnext } ∧ (t.idequeue = some b ↔ q = []) := by
  have hcut := hl.update hb none
  unfold enqueue
  dsimp only
  cases hq : s.idequeue with
  | none =>
    rw [hq] at hcut
    have hnil : q = [] := by
      cases q with
      | nil => rfl
      | cons c rest => simp [Linked.cons_iff] at hcut
    subst hnil
    refine ⟨_, rfl, ?_, rfl, by simp⟩
    refine Linked.cons_iff.mpr ⟨rfl, ?_⟩
    simp [Linked]
  | some x =>
    rw [hq] at hcut
    have hlen : q.length ≤ Fintype.card B := hnodup.length_le_card
    have hx := hcut.head_mem
    have hne : x ≠ b := fun he => hb (he ▸ hx)
    dsimp only
    rw [Linked.lastFrom_eq hcut hlen]
    rcases List.eq_nil_or_concat q with hnil | ⟨init, last, hconcat⟩
    · subst hnil
      simp at hx
    · rw [List.concat_eq_append] at hconcat
      subst hconcat
      rw [List.getLast?_concat, Option.map_some]
      exact ⟨_, rfl, hcut.snoc hnodup hb (by simp), rfl, by simp [hne]⟩

omit [DecidableEq P] [Fintype B] in
theorem Inv.not_mem_of_idle (h : s.Inv m q) (hp : s.pc p = .idle) (hb : s.holder b = some p) :
    ∀ r k, (s.pc r).waits ≠ some (k, b) := by
  intro r k hw
  have hr := (h.waits r k b hw).1
  cases Option.some.inj (hb.symm.trans hr)
  simp [hp, IdePc.waits] at hw

omit [DecidableEq B] [Fintype B] in
theorem setPc_waits {c : IdePc B} {r : P} :
    ((s.setPc p c).pc r).waits = if r = p then c.waits else (s.pc r).waits := by
  by_cases hr : r = p
  · subst hr
    simp [setPc]
  · simp [setPc, hr]

omit [Fintype B] in
/-- A process at the loop of iderw: it sleeps on while its buffer is queued, and returns once the
request has been executed. -/
theorem Inv.wait (h : s.Inv m q) {k : Nat} (hp : s.pc p = .awake k b) : (s.wait p k b).Inv m q := by
  have hw : (s.pc p).waits = some (k, b) := by rw [hp]; rfl
  obtain ⟨hholder, hstate⟩ := h.waits p k b hw
  unfold Ide.wait
  split
  next hsync =>
    have hb : b ∉ q := by
      intro hm
      have := (h.queued b hm).1.pending
      simp [hsync] at this
    have hk : k ∈ s.executed.map Prod.fst := by
      rcases hstate with ⟨hm, _⟩ | ⟨_, _, hk⟩
      · exact absurd hm hb
      · exact hk
    refine ⟨h.linked, h.nodup, ?_, ?_, ?_, h.device, h.issued, h.ids, ?_, h.requests, h.synchronous⟩
    · intro c hc
      obtain ⟨hv, r, j, hr⟩ := h.queued c hc
      refine ⟨hv, r, j, ?_⟩
      have hne : r ≠ p := by
        rintro rfl
        cases Option.some.inj (hw.symm.trans hr)
        exact hb hc
      exact setPc_waits.trans ((if_neg hne).trans hr)
    · intro r j c hr
      have hr := setPc_waits.symm.trans hr
      split at hr
      · simp [IdePc.waits] at hr
      · exact h.waits r j c hr
    · intro r j c hr
      have hne : r ≠ p := by
        rintro rfl
        simp [setPc] at hr
      exact h.asleep r j c (by simpa [setPc, hne] using hr)
    · intro j hj
      rcases List.mem_append.mp hj with hj | hj
      · exact h.returned j hj
      · cases List.mem_singleton.mp hj
        exact hk
  next hsync =>
    have hb : b ∈ q := by
      rcases hstate with ⟨hm, _⟩ | ⟨_, hs, _⟩
      · exact hm
      · exact absurd hs hsync
    have hsame : ∀ r, ((s.setPc p (.asleep k b)).pc r).waits = (s.pc r).waits := by
      intro r
      rw [setPc_waits]
      split
      next hr => rw [hr, hp]; rfl
      next => rfl
    refine ⟨h.linked, h.nodup, ?_, ?_, ?_, h.device, h.issued, h.ids, h.returned, h.requests,
      h.synchronous⟩
    · intro c hc
      obtain ⟨hv, r, j, hr⟩ := h.queued c hc
      exact ⟨hv, r, j, (hsame r).trans hr⟩
    · intro r j c hr
      exact h.waits r j c ((hsame r).symm.trans hr)
    · intro r j c hr
      by_cases hne : r = p
      · subst hne
        have hr : IdePc.asleep k b = .asleep j c := by simpa [setPc] using hr
        cases hr
        exact hb
      · exact h.asleep r j c (by simpa [setPc, hne] using hr)

omit [DecidableEq P] [DecidableEq B] [Fintype B] in
theorem DeviceOk.ready (h : s.DeviceOk []) : s.device = .ready := by
  unfold DeviceOk at h
  cases hd : s.device with
  | ready => rfl
  | busy c => simp [hd] at h
  | done data => simp [hd] at h

omit [DecidableEq P] [DecidableEq B] [Fintype B] in
theorem DeviceOk.snoc {x : B} {rest : List B} (h : s.DeviceOk (x :: rest)) :
    s.DeviceOk (x :: rest ++ [b]) := by
  unfold DeviceOk at h ⊢
  cases hd : s.device with
  | ready => simp [hd] at h
  | busy c =>
    rw [hd] at h
    obtain ⟨y, l, hq, hc⟩ := h
    obtain ⟨rfl, rfl⟩ := List.cons.inj hq
    exact ⟨_, _, rfl, hc⟩
  | done data =>
    rw [hd] at h
    obtain ⟨y, l, hq, hc⟩ := h
    obtain ⟨rfl, rfl⟩ := List.cons.inj hq
    exact ⟨_, _, rfl, hc⟩

omit [DecidableEq P] [DecidableEq B] [Fintype B] in
theorem unexecuted_snoc {x : B} {rest : List B} :
    s.unexecuted (x :: rest ++ [b]) = s.unexecuted (x :: rest) ++ [b] := by
  unfold unexecuted
  split <;> rfl

omit [DecidableEq P] [DecidableEq B] [Fintype B] in
theorem unexecuted_subset {c : B} (h : c ∈ s.unexecuted q) : c ∈ q := by
  unfold unexecuted at h
  split at h
  · exact List.mem_of_mem_tail h
  · exact h

/-- The state after a call of iderw: the request is queued, the disk may have been started, and p
sleeps. -/
structure Queued (s t : Ide P B) (p : P) (b : B) (q : List B) : Prop where
  linked : Linked t.qnext t.idequeue (q ++ [b])
  disk : t.disk = s.disk
  buf : t.buf = s.buf
  holder : t.holder = s.holder
  device : t.device = if q = [] then .busy (t.command b) else s.device
  pc : t.pc = Function.update s.pc p (.asleep s.calls b)
  calls : t.calls = s.calls + 1
  call : t.call = Function.update s.call b s.calls
  issued : t.issued = s.issued ++ [(s.calls, b)]
  executed : t.executed = s.executed
  returned : t.returned = s.returned
  history : t.history = s.history

theorem iderw_queued (hl : Linked s.qnext s.idequeue q) (hnodup : q.Nodup) (hb : b ∉ q)
    (hv : (s.buf b).synced = false) : ∃ t, s.iderw p b = some t ∧ s.Queued t p b q := by
  obtain ⟨u, hu, hlinked, hsame, hfirst⟩ := enqueue_spec (s := s.count b) hl hnodup hb
  refine ⟨_, by rw [Ide.iderw, hu]; rfl, ?_⟩
  dsimp only
  by_cases hq : q = []
  · rw [if_pos (hfirst.mpr hq)]
    have hs : ((u.idestart b).buf b).synced = false := by
      rw [hsame]
      exact hv
    rw [Ide.wait, if_neg (by simp [hs])]
    rw [hsame] at hlinked ⊢
    exact ⟨hlinked, rfl, rfl, rfl, by rw [if_pos hq]; rfl, rfl, rfl, rfl, rfl, rfl, rfl, rfl⟩
  · rw [if_neg (fun he => hq (hfirst.mp he))]
    have hs : (u.buf b).synced = false := by
      rw [hsame]
      exact hv
    rw [Ide.wait, if_neg (by simp [hs])]
    rw [hsame] at hlinked ⊢
    exact ⟨hlinked, rfl, rfl, rfl, by rw [if_neg hq]; rfl, rfl, rfl, rfl, rfl, rfl, rfl, rfl⟩

theorem Inv.iderw (h : s.Inv m q) (hp : s.pc p = .idle) (hholder : s.holder b = some p)
    (hv : Valid (s.buf b)) :
    ∃ t, s.iderw p b = some t ∧ t.Inv m (q ++ [b]) := by
  have hno := h.not_mem_of_idle hp hholder
  have hb : b ∉ q := by
    intro hm
    obtain ⟨_, r, k, hw⟩ := h.queued b hm
    exact hno r k hw
  obtain ⟨t, ht, hQ⟩ := iderw_queued (p := p) h.linked h.nodup hb hv.pending
  have hcall : ∀ c ∈ q, t.call c = s.call c := by
    intro c hc
    rw [hQ.call]
    refine Function.update_of_ne ?_ _ _
    rintro rfl
    exact hb hc
  have hself : t.call b = s.calls := by rw [hQ.call, Function.update_self]
  have hwaits : ∀ r, (t.pc r).waits = if r = p then some (s.calls, b) else (s.pc r).waits := by
    intro r
    rw [hQ.pc]
    by_cases hr : r = p
    · subst hr
      simp [IdePc.waits]
    · simp [hr]
  have hmap : (s.unexecuted q).map (fun c => (t.call c, c)) = (s.unexecuted q).map fun c =>
      (s.call c, c) := by
    apply List.map_congr_left
    intro c hc
    rw [hcall c (unexecuted_subset hc)]
  refine ⟨t, ht, hQ.linked, ?_, ?_, ?_, ?_, ?_, ?_, ?_, ?_, ?_, ?_⟩
  · exact List.nodup_append.mpr ⟨h.nodup, by simp, by
      rintro a ha c hc rfl
      exact hb (List.mem_singleton.mp hc ▸ ha)⟩
  · intro c hc
    rw [hQ.buf]
    rcases List.mem_append.mp hc with hc | hc
    · obtain ⟨hvc, r, k, hr⟩ := h.queued c hc
      refine ⟨hvc, r, k, ?_⟩
      have hne : r ≠ p := by
        rintro rfl
        simp [hp, IdePc.waits] at hr
      rw [hwaits, if_neg hne]
      exact hr
    · cases List.mem_singleton.mp hc
      exact ⟨hv, p, s.calls, by rw [hwaits, if_pos rfl]⟩
  · intro r k c hw
    rw [hwaits] at hw
    rw [hQ.holder, hQ.buf, hQ.executed]
    split at hw
    next hr =>
      cases Option.some.inj hw
      exact ⟨hr ▸ hholder, .inl ⟨by simp, hself⟩⟩
    next hr =>
      obtain ⟨hh, hstate⟩ := h.waits r k c hw
      refine ⟨hh, ?_⟩
      rcases hstate with ⟨hc, hk⟩ | ⟨hc, hs, hk⟩
      · exact .inl ⟨List.mem_append_left _ hc, (hcall c hc).trans hk⟩
      · refine .inr ⟨?_, hs, hk⟩
        intro hm
        rcases List.mem_append.mp hm with hm | hm
        · exact hc hm
        · cases List.mem_singleton.mp hm
          exact hno r k hw
  · intro r k c hr
    rw [hQ.pc] at hr
    by_cases hrp : r = p
    · subst hrp
      rw [Function.update_self] at hr
      cases hr
      simp
    · rw [Function.update_of_ne hrp] at hr
      exact List.mem_append_left _ (h.asleep r k c hr)
  · cases q with
    | nil =>
      unfold DeviceOk
      rw [hQ.device, if_pos rfl]
      exact ⟨b, [], rfl, rfl⟩
    | cons x rest =>
      have hdev : t.device = s.device := by rw [hQ.device, if_neg (by simp)]
      exact (deviceOk_congr h.device hdev hQ.disk hQ.executed (fun c _ => by rw [hQ.buf]) hcall).snoc
  · rw [hQ.issued, hQ.executed, h.issued]
    cases q with
    | nil =>
      have hready := h.device.ready
      simp [unexecuted, hready, hQ.device, hself]
    | cons x rest =>
      have hdev : t.device = s.device := by rw [hQ.device, if_neg (by simp)]
      have hun : t.unexecuted (x :: rest ++ [b]) = s.unexecuted (x :: rest) ++ [b] := by
        rw [unexecuted_snoc, unexecuted, unexecuted, hdev]
      rw [hun, List.map_append, hmap, List.append_assoc]
      simp [hself]
  · rw [hQ.issued, hQ.calls, List.map_append, h.ids, List.range_succ]
    rfl
  · rw [hQ.returned, hQ.executed]
    exact h.returned
  · rw [hQ.history, hQ.executed]
    exact h.requests
  · rw [hQ.history, h.synchronous, hQ.disk]
    congr 2
    cases q with
    | nil =>
      have hready := h.device.ready
      simp [settled, hready, hQ.device, hQ.buf]
    | cons x rest =>
      have hdev : t.device = s.device := by rw [hQ.device, if_neg (by simp)]
      unfold settled
      rw [hdev, hQ.buf]
      cases s.device <;> rfl

omit [DecidableEq P] [DecidableEq B] [Fintype B] in
theorem command_addr (hv : Valid (s.buf b)) : (s.command b).addr = (s.buf b).addr :=
  Prod.ext (by simp [command, hv.dev]) rfl

omit [DecidableEq P] [Fintype B] in
/-- memide.c on a request that ide.c accepts for disk 1: what the disk executes, and then the
interrupt. -/
theorem memDisk_iderw (hv : Valid (s.buf b)) :
    (MemDisk.mk s.disk s.buf).iderw FSSIZE b =
      .ok ⟨(s.execute (s.command b)).disk,
        Function.update s.buf b (complete (s.buf b) (s.disk (s.buf b).addr))⟩ := by
  unfold MemDisk.iderw
  rw [if_neg (by simp [hv.locked]), if_neg (by simp [hv.pending]), if_neg (by simp [hv.dev]),
    if_neg (Nat.not_le.mpr hv.blockno)]
  unfold Ide.execute
  dsimp only
  rw [command_addr hv]
  cases hd : (s.buf b).dirty with
  | true => simp [complete, command, hd]
  | false => simp [complete, command, hd]

omit [DecidableEq P] [Fintype B] in
theorem Inv.execute (h : s.Inv m q) {c : DiskCmd B} (hc : s.device = .busy c) :
    (s.execute c).Inv m q := by
  have hdev := h.device
  rw [DeviceOk, hc] at hdev
  obtain ⟨x, rest, rfl, rfl⟩ := hdev
  have hx := (h.queued x List.mem_cons_self).1
  have haddr := command_addr hx
  refine ⟨h.linked, h.nodup, h.queued, ?_, h.asleep, ?_, ?_, h.ids, ?_, ?_, ?_⟩
  · intro p k b hw
    obtain ⟨hholder, hstate⟩ := h.waits p k b hw
    refine ⟨hholder, hstate.imp_right fun hdone => ⟨hdone.1, hdone.2.1, ?_⟩⟩
    simp only [Ide.execute, List.map_append]
    exact List.mem_append_left _ hdone.2.2
  · refine ⟨x, rest, rfl, by simp [Ide.execute, command], fun hclean => ?_⟩
    have hclean' : (s.buf x).dirty = false := hclean
    have hread : (s.command x).write = none := by simp [command, hclean']
    unfold Ide.execute
    dsimp only
    rw [hread, haddr]
  · have hq := h.issued
    rw [unexecuted, hc] at hq
    simpa [Ide.execute, unexecuted, command] using hq
  · intro k hk
    simp only [Ide.execute, List.map_append]
    exact List.mem_append_left _ (h.returned k hk)
  · simp only [Ide.execute, List.filterMap_append, List.map_append, h.requests]
    rfl
  · have hsettled : s.settled (x :: rest) = s.buf := by simp [settled, hc]
    have hsync := h.synchronous
    rw [hsettled] at hsync
    have hlast := replay_snoc hsync (.rw x)
    rw [MemDisk.apply, memDisk_iderw hx] at hlast
    refine hlast.trans ?_
    rw [← haddr]
    rfl

omit [DecidableEq P] [Fintype B] in
theorem wakeup_waits (c : IdePc B) : (wakeup b c).waits = c.waits := by
  cases c with
  | idle | awake k d => rfl
  | asleep k d =>
    by_cases hd : d = b
    · simp [wakeup, hd, IdePc.waits]
    · simp [wakeup, hd]

/-- After the interrupt: the first request is off the queue, and the disk has been started on the
next one. -/
structure Dequeued (s t : Ide P B) (x : B) (rest : List B) : Prop where
  linked : Linked t.qnext t.idequeue rest
  disk : t.disk = s.disk
  buf : t.buf = s.settled (x :: rest)
  holder : t.holder = s.holder
  device : t.device = match rest with
    | [] => .ready
    | c :: _ => .busy (t.command c)
  pc : ∀ p, t.pc p = wakeup x (s.pc p)
  calls : t.calls = s.calls
  call : t.call = s.call
  issued : t.issued = s.issued
  executed : t.executed = s.executed
  returned : t.returned = s.returned
  history : t.history = s.history

omit [DecidableEq P] [Fintype B] in
theorem ideintr_dequeued {x : B} {rest : List B} {data : DiskBlock}
    (hl : Linked s.qnext s.idequeue (x :: rest))
    (hd : s.device = .done data) : s.Dequeued (s.ideintr data) x rest := by
  obtain ⟨hx, hrest⟩ := Linked.cons_iff.mp hl
  have hbuf : Function.update s.buf x (complete (s.buf x) data) = s.settled (x :: rest) := by
    simp [settled, hd]
  unfold Ide.ideintr
  rw [hx]
  dsimp only
  cases rest with
  | nil =>
    rw [Linked.nil_iff.mp hrest]
    exact ⟨trivial, rfl, hbuf, rfl, rfl, fun _ => rfl, rfl, rfl, rfl, rfl, rfl, rfl⟩
  | cons c rest =>
    have hc := (Linked.cons_iff.mp hrest).1
    rw [hc] at hrest ⊢
    exact ⟨hrest, rfl, hbuf, rfl, rfl, fun _ => rfl, rfl, rfl, rfl, rfl, rfl, rfl⟩

omit [DecidableEq P] [Fintype B] in
theorem Inv.ideintr (h : s.Inv m q) {data : DiskBlock} (hd : s.device = .done data) :
    ∃ rest, (s.ideintr data).Inv m rest := by
  have hdev := h.device
  rw [DeviceOk, hd] at hdev
  obtain ⟨x, rest, rfl, hexec, _⟩ := hdev
  have hQ := ideintr_dequeued h.linked hd
  generalize s.ideintr data = t at hQ
  obtain ⟨hxrest, hnodup⟩ := List.nodup_cons.mp h.nodup
  have hsettled : s.settled (x :: rest) = Function.update s.buf x (complete (s.buf x) data) := by
    simp [settled, hd]
  have hself : (t.buf x).synced = true := by simp [hQ.buf, hsettled, Buf.synced, complete]
  have hother : ∀ c, c ≠ x → t.buf c = s.buf c := by
    intro c hc
    rw [hQ.buf, hsettled, Function.update_of_ne hc]
  have hne : ∀ c ∈ rest, c ≠ x := fun c hc he => hxrest (he ▸ hc)
  refine ⟨rest, hQ.linked, hnodup, ?_, ?_, ?_, ?_, ?_, ?_, ?_, ?_, ?_⟩
  · intro c hc
    obtain ⟨hv, p, k, hw⟩ := h.queued c (List.mem_cons_of_mem x hc)
    refine ⟨by rw [hother c (hne c hc)]; exact hv, p, k, ?_⟩
    rw [hQ.pc, wakeup_waits, hw]
  · intro p k c hw
    rw [hQ.pc, wakeup_waits] at hw
    obtain ⟨hholder, hstate⟩ := h.waits p k c hw
    rw [hQ.holder, hQ.call, hQ.executed]
    refine ⟨hholder, ?_⟩
    by_cases hc : c = x
    · subst hc
      right
      rcases hstate with ⟨_, hk⟩ | ⟨hno, _⟩
      · exact ⟨hxrest, hself, hk ▸ hexec⟩
      · exact absurd List.mem_cons_self hno
    · rw [hother c hc]
      simpa [hc] using hstate
  · intro p k c hp
    rw [hQ.pc] at hp
    cases hs : s.pc p with
    | idle | awake j d => simp [hs, wakeup] at hp
    | asleep j d =>
      rw [hs, wakeup] at hp
      split at hp
      next => cases hp
      next hdx =>
        cases hp
        rcases List.mem_cons.mp (h.asleep p k c hs) with hm | hm
        · exact absurd hm hdx
        · exact hm
  · unfold DeviceOk
    rw [hQ.device]
    cases rest with
    | nil => rfl
    | cons c rest => exact ⟨c, rest, rfl, rfl⟩
  · have hun : t.unexecuted rest = rest := by
      rw [unexecuted, hQ.device]
      cases rest <;> rfl
    rw [hun, hQ.issued, hQ.executed, hQ.call, h.issued, unexecuted, hd]
    rfl
  · rw [hQ.issued, hQ.calls, h.ids]
  · rw [hQ.returned, hQ.executed]
    exact h.returned
  · rw [hQ.history, hQ.executed]
    exact h.requests
  · have hlast : t.settled rest = s.settled (x :: rest) := by
      rw [← hQ.buf]
      unfold settled
      rw [hQ.device]
      cases rest <;> rfl
    rw [hQ.history, hQ.disk, hlast]
    exact h.synchronous

omit [Fintype B] in
theorem Inv.wakeup (h : s.Inv m q) {k : Nat} (hp : s.pc p = .asleep k b) :
    (s.setPc p (.awake k b)).Inv m q := by
  have hwaits : ∀ r, ((s.setPc p (.awake k b)).pc r).waits = (s.pc r).waits := by
    intro r
    rw [setPc_waits]
    split
    next hr => rw [hr, hp]; rfl
    next => rfl
  refine ⟨h.linked, h.nodup, ?_, ?_, ?_, h.device, h.issued, h.ids, h.returned, h.requests,
    h.synchronous⟩
  · intro c hc
    obtain ⟨hv, r, j, hw⟩ := h.queued c hc
    exact ⟨hv, r, j, (hwaits r).trans hw⟩
  · intro r j c hw
    exact h.waits r j c ((hwaits r).symm.trans hw)
  · intro r j c hr
    by_cases hrp : r = p
    · subst hrp
      simp [setPc] at hr
    · refine h.asleep r j c ?_
      simpa [setPc, hrp] using hr

omit [DecidableEq P] [DecidableEq B] [Fintype B] in
theorem valid_of_check (hc : s.check b = .ok ()) (hdev : (s.buf b).addr.1 = 1) :
    Valid (s.buf b) := by
  unfold check at hc
  split at hc
  · cases hc
  · next hlocked =>
    split at hc
    · cases hc
    · next hsync =>
      split at hc
      · cases hc
      · split at hc
        · cases hc
        · next hblock => exact ⟨by simpa using hlocked, by simpa using hsync, hdev, Nat.lt_of_not_le hblock⟩

theorem step_inv {e : IdeEvent P B} (h : ∃ q, s.Inv m q) (hs : s.step e = some t) :
    ∃ q, t.Inv m q := by
  obtain ⟨q, h⟩ := h
  cases e with
  | lock p b =>
    simp only [step] at hs
    split at hs
    next hp =>
      split at hs
      next hfree =>
        cases hs
        refine ⟨q, h.store _ _ fun r k hw => ?_⟩
        have hr := (h.waits r k b hw).1
        rw [hfree] at hr
        cases hr
      next => cases hs
    next => cases hs
  | store p b v =>
    simp only [step] at hs
    split at hs
    next hp =>
      split at hs
      next hheld =>
        cases hs
        have hstore := h.store v (some p) (h.not_mem_of_idle hp hheld.1)
        rw [← hheld.1, Function.update_eq_self] at hstore
        exact ⟨q, hstore⟩
      next => cases hs
    next => cases hs
  | unlock p b =>
    simp only [step] at hs
    split at hs
    next hp =>
      split at hs
      next hheld =>
        cases hs
        exact ⟨q, h.store _ _ (h.not_mem_of_idle hp hheld)⟩
      next => cases hs
    next => cases hs
  | iderw p b =>
    simp only [step] at hs
    split at hs
    next hp hc =>
      split at hs
      next hheld =>
        obtain ⟨u, hu, hinv⟩ := h.iderw hp hheld.1 (valid_of_check hc hheld.2)
        cases Option.some.inj (hu.symm.trans hs)
        exact ⟨_, hinv⟩
      next => cases hs
    next => cases hs
  | wakeup p =>
    simp only [step] at hs
    split at hs
    next hp =>
      cases hs
      exact ⟨q, h.wakeup hp⟩
    next => cases hs
  | run p =>
    simp only [step] at hs
    split at hs
    next hp =>
      cases hs
      exact ⟨q, h.wait hp⟩
    next => cases hs
  | execute =>
    simp only [step] at hs
    split at hs
    next hd =>
      cases hs
      exact ⟨q, h.execute hd⟩
    next => cases hs
  | ideintr =>
    simp only [step] at hs
    split at hs
    next hd =>
      cases hs
      exact h.ideintr hd
    next => cases hs

/-- What the users of the driver rely on, at any time. -/
structure Serves (m : MemDisk B) (s : Ide P B) : Prop where
  /-- Every call has its own number, and the requests are executed in the order of the calls. -/
  numbered : s.issued.map Prod.fst = List.range s.calls
  fifo : s.executed <+: s.issued
  /-- A call has only returned if its own request has been executed. -/
  returned : ∀ k ∈ s.returned, k ∈ s.executed.map Prod.fst
  /-- The queue is a list without repetitions, and a process in its call waits for a buffer that it has
  locked and that is queued for this call or complete; if it sleeps, the buffer is queued. -/
  queue : ∃ q, Linked s.qnext s.idequeue q ∧ q.Nodup ∧ (∀ p k b, s.pc p = .asleep k b → b ∈ q) ∧
    ∀ p k b, (s.pc p).waits = some (k, b) → s.holder b = some p ∧
      ((b ∈ q ∧ s.call b = k) ∨ ((s.buf b).synced = true ∧ k ∈ s.executed.map Prod.fst))
  /-- A call that passes the checks finds the end of the queue. -/
  accepts : ∀ p b, s.pc p = .idle → s.holder b = some p → s.check b = .ok () →
    (s.buf b).addr.1 = 1 →
    (s.step (.iderw p b)).isSome
  /-- memide.c, given what happened to the buffers with the requests in this order, ends with the same disk
  and the same buffers when no request is left. -/
  requests : s.history.filterMap BufOp.request = s.executed.map Prod.snd
  synchronous : s.idequeue = none → s.executed = s.issued ∧ m.replay s.history = .ok ⟨s.disk, s.buf⟩

theorem Inv.serves (h : s.Inv m q) : s.Serves m := by
  refine ⟨h.ids, ⟨_, h.issued.symm⟩, h.returned, ⟨q, h.linked, h.nodup, h.asleep, ?_⟩, ?_,
    h.requests, ?_⟩
  · intro p k b hw
    obtain ⟨hholder, hstate⟩ := h.waits p k b hw
    exact ⟨hholder, hstate.imp_right And.right⟩
  · intro p b hp hholder hc hdev
    obtain ⟨t, ht, _⟩ := h.iderw hp hholder (valid_of_check hc hdev)
    simp [step, hp, hc, hholder, hdev, ht]
  · intro hnone
    have hl := h.linked
    rw [hnone] at hl
    cases q with
    | cons x rest => simp [Linked.cons_iff] at hl
    | nil =>
      have hready := h.device.ready
      have hissued := h.issued
      have hsync := h.synchronous
      simp only [unexecuted, settled, hready, List.map_nil, List.append_nil] at hissued hsync
      exact ⟨hissued.symm, hsync⟩

/-- The queued driver refines the one that executes each request at once. -/
theorem ide_refines_memide {m : MemDisk B} {es : List (IdeEvent P B)} {s : Ide P B}
    (h : Runs.exec step (boot m) es = some s) : s.Serves m := by
  obtain ⟨q, hinv⟩ := Runs.invariant (I := fun s => ∃ q, Inv m s q) ⟨[], boot_inv m⟩
    (fun _ _ _ hi hst => step_inv hi hst) h
  exact hinv.serves

/-- A disk of zeros. -/
def zeroed : MemDisk (Fin 2) :=
  ⟨fun _ _ => 0, fun _ => ⟨(1, 0), false, false, false, 0, fun _ => 0⟩⟩

/-- One process writes a block, and another one reads it; its call comes while the disk works for
the first. -/
def twoCalls : List (IdeEvent (Fin 2) (Fin 2)) :=
  [.lock 0 0, .store 0 0 ⟨(1, 5), false, true, true, 1, fun _ => 7⟩, .lock 1 1,
    .store 1 1 ⟨(1, 5), false, false, true, 1, fun _ => 0⟩, .iderw 0 0, .iderw 1 1, .execute,
      .wakeup 1, .run 1,
    .ideintr, .run 0, .execute, .ideintr, .run 1]

theorem ide_refines_memide_two_calls :
    ∃ s : Ide (Fin 2) (Fin 2), Runs.exec step (boot zeroed) twoCalls = some s ∧
      s.returned = [0, 1] ∧
      (s.buf 1).data 0 = 7 ∧ s.Serves zeroed := by
  have hrun : (Runs.exec step (boot zeroed : Ide (Fin 2) (Fin 2)) twoCalls).map
      (fun s => (s.returned, (s.buf 1).data 0)) = some ([0, 1], 7) := by decide +kernel
  obtain ⟨s, hs, hd⟩ := Option.map_eq_some_iff.mp hrun
  obtain ⟨hret, hdata⟩ := Prod.mk.inj hd
  exact ⟨s, hs, hret, hdata, ide_refines_memide hs⟩

end Ide

end Xv6
