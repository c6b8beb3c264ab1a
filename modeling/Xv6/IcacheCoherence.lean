import Xv6.IcacheRefs

namespace Xv6

variable {Pid : Type} [DecidableEq Pid] [Fintype Pid]

/-- A process may move on as long as it neither starts nor stops freeing an entry and
owns the lock of the entry it is now inside ilock with. -/
theorem Icache.Inv.setPc {s : Icache Pid} (h : s.Inv) {p : Pid} {v : InodePc}
    (hf : v.freed = (s.pc p).freed)
    (hl : ∀ ip, v.locked = some ip → s.lock ip = some p ∧ 0 < s.refs p ip ∧ s.hold p ip = .none)
    (hload : ∀ ip, v = .lockLoad ip → s.valid ip = false) : (s.setPc p v).Inv := by
  have hfreed : ∀ q i, (s.setPc p v).FreedBy q i ↔ s.FreedBy q i := by
    intro q i
    by_cases hq : q = p
    · simp [Icache.FreedBy, Icache.setPc, hq, hf]
    · simp [Icache.FreedBy, Icache.setPc, Function.update_of_ne hq]
  have hlocking : ∀ q i, (s.setPc p v).Locking q i →
      s.Locking q i ∨ (q = p ∧ v.locked = some i) := by
    intro q i hq
    by_cases hqp : q = p
    · subst q
      rcases hq with hh | hh
      · exact Or.inl (Or.inl hh)
      · exact Or.inr ⟨rfl, by simpa [Icache.setPc] using hh⟩
    · exact Or.inl (by simpa [Icache.Locking, Icache.setPc, Function.update_of_ne hqp] using hq)
  exact { h with
    owner := by
      intro q i hq
      rcases hlocking q i hq with hq | ⟨rfl, hv⟩
      · exact h.owner q i hq
      · exact (hl i hv).1
    lockRef := by
      intro q i hq
      rcases hlocking q i hq with hq | ⟨rfl, hv⟩
      · exact h.lockRef q i hq
      · exact (hl i hv).2.1
    freeRef := fun q i hq => h.freeRef q i ((hfreed q i).mp hq)
    fresh := by
      intro q i hq
      by_cases hqp : q = p
      · subst q
        exact (hl i (by simpa [Icache.setPc] using hq)).2.2
      · exact h.fresh q i (by simpa [Icache.setPc, Function.update_of_ne hqp] using hq)
    loadInvalid := by
      intro q i hq
      by_cases hqp : q = p
      · exact hload i (by simpa [Icache.setPc, hqp] using hq)
      · exact h.loadInvalid q i (by simpa [Icache.setPc, Function.update_of_ne hqp] using hq)
    freeValid := fun q i hq => h.freeValid q i ((hfreed q i).mp hq)
    freeAlone := fun q i hq => h.freeAlone q i ((hfreed q i).mp hq)
    freeOnce := fun q r i hq hr => h.freeOnce q r i ((hfreed q i).mp hq) ((hfreed r i).mp hr)
    settled := fun i hi hv hn => h.settled i hi hv (fun q hq => hn q ((hfreed q i).mpr hq)) }

theorem Icache.Inv.setPc_ready {s : Icache Pid} (h : s.Inv) {p : Pid} (hf : (s.pc p).freed = none) :
    (s.setPc p .ready).Inv :=
  h.setPc (by rw [hf]; rfl) (by simp [InodePc.locked]) (by simp)

omit [DecidableEq Pid] in
theorem Icache.Inv.setLock {s : Icache Pid} (h : s.Inv) {ip : InodeSlot} {v : Option Pid}
    (hl : ∀ q, ¬ s.Locking q ip) : (s.setLock ip v).Inv := by
  exact { h with
    owner := by
      intro q i hq
      have hi : i ≠ ip := by
        rintro rfl
        exact hl q hq
      simpa [Icache.setLock, Function.update_of_ne hi] using h.owner q i hq }

omit [Fintype Pid] in
theorem Icache.setHold_other {s : Icache Pid} {p q : Pid} {ip i : InodeSlot} {v : Hold}
    (hne : ¬ (q = p ∧ i = ip)) : (s.setHold p ip v).hold q i = s.hold q i := by
  by_cases hq : q = p
  · subst q
    have hi : i ≠ ip := fun he => hne ⟨rfl, he⟩
    simp [Icache.setHold, Function.update_of_ne hi]
  · simp [Icache.setHold, Function.update_of_ne hq]

omit [Fintype Pid] in
theorem Icache.setHold_same {s : Icache Pid} {p : Pid} {ip : InodeSlot} {v : Hold} :
    (s.setHold p ip v).hold p ip = v := by
  simp [Icache.setHold]

/-- The lock owner of a valid entry that nobody is freeing may change its hold on it, if
the entry agrees with the disk unless the new hold says otherwise. -/
theorem Icache.Inv.setHold {s : Icache Pid} (h : s.Inv) {p : Pid} {ip : InodeSlot} {v : Hold}
    (hl : s.lock ip = some p) (hr : 0 < s.refs p ip) (hpc : (s.pc p).locked ≠ some ip)
    (hv : s.valid ip = true) (hf : ∀ q, ¬ s.FreedBy q ip)
    (hd : v = .changed ∨ s.din ip = s.disk (s.inum ip)) : (s.setHold p ip v).Inv := by
  have hlocking : ∀ q i, (s.setHold p ip v).Locking q i → s.Locking q i ∨ (q = p ∧ i = ip) := by
    intro q i hq
    by_cases hne : q = p ∧ i = ip
    · exact Or.inr hne
    · left
      rcases hq with hh | hh
      · exact Or.inl (by rwa [Icache.setHold_other hne] at hh)
      · exact Or.inr hh
  exact { h with
    owner := by
      intro q i hq
      rcases hlocking q i hq with hq | ⟨rfl, rfl⟩
      · exact h.owner q i hq
      · exact hl
    lockRef := by
      intro q i hq
      rcases hlocking q i hq with hq | ⟨rfl, rfl⟩
      · exact h.lockRef q i hq
      · exact hr
    fresh := by
      intro q i hq
      rw [Icache.setHold_other]
      · exact h.fresh q i hq
      · rintro ⟨rfl, rfl⟩
        exact hpc hq
    holdValid := by
      intro q i hq
      by_cases hne : q = p ∧ i = ip
      · rw [hne.2]
        exact hv
      · exact h.holdValid q i (by rwa [Icache.setHold_other hne] at hq)
    freeAlone := by
      intro q i hq r
      have hi : i ≠ ip := by
        rintro rfl
        exact hf q hq
      rw [Icache.setHold_other (fun he => hi he.2)]
      exact h.freeAlone q i hq r
    settled := by
      intro i hi hvi hn
      obtain ⟨h1, h2, h3⟩ := h.settled i hi hvi hn
      refine ⟨h1, h2, fun hc => ?_⟩
      by_cases he : i = ip
      · subst i
        exact hd.resolve_left (fun hh => hc p (by rw [Icache.setHold_same]; exact hh))
      · exact h3 (fun q => by
          have := hc q
          rwa [Icache.setHold_other (fun hh => he hh.2)] at this) }

omit [DecidableEq Pid] in
theorem Icache.Inv.rewrite {s t : Icache Pid} (h : s.Inv)
    (he : t = { s with disk := t.disk, din := t.din })
    (hset : ∀ ip, 0 < s.ref ip → s.valid ip = true → (∀ q, ¬ s.FreedBy q ip) →
      (t.din ip).type ≠ 0 ∧ (t.disk (s.inum ip)).type ≠ 0 ∧
        ((∀ q, s.hold q ip ≠ .changed) → t.din ip = t.disk (s.inum ip))) : t.Inv := by
  rw [he]
  exact { h with settled := hset }

theorem Icache.Inv.ialloc {s : Icache Pid} (h : s.Inv) {p : Pid} {inum : Nat} {din : Dinode}
    (hp : s.pc p = .ready) (hfree : (s.disk inum).type = 0) :
    ((s.setDisk inum din).setPc p (.allocated inum)).Inv := by
  have hdisk : (s.setDisk inum din).Inv := by
    refine h.rewrite rfl fun ip hr hv hn => ?_
    obtain ⟨h1, h2, h3⟩ := h.settled ip hr hv hn
    have hne : s.inum ip ≠ inum := by
      rintro rfl
      exact h2 hfree
    simpa [Icache.setDisk, Function.update_of_ne hne] using ⟨h1, h2, h3⟩
  refine hdisk.setPc ?_ (by simp [InodePc.locked]) (by simp)
  simp [Icache.setDisk, hp, InodePc.freed]

theorem Icache.Inv.ilock {s : Icache Pid} (h : s.Inv) {p : Pid} {ip : InodeSlot}
    (hp : s.pc p = .ready) (hr : 0 < s.refs p ip) (hl : s.lock ip = none) :
    ((s.setLock ip (some p)).setPc p (.lockTest ip)).Inv := by
  have hno := h.not_locking_of_free hl
  refine (h.setLock hno).setPc ?_ ?_ (by simp)
  · simp [Icache.setLock, hp, InodePc.freed]
  · intro i hi
    have he : ip = i := by simpa [InodePc.locked] using hi
    subst i
    refine ⟨by simp [Icache.setLock], hr, ?_⟩
    by_contra hh
    exact hno p (Or.inl hh)

/-- Past the test of I_VALID the entry is up to date, because no iput is freeing it. -/
theorem Icache.Inv.ilockTest {s : Icache Pid} (h : s.Inv) {p : Pid} {ip : InodeSlot}
    (hp : s.pc p = .lockTest ip) (hf : ∀ q, ¬ s.FreedBy q ip) : (s.ilockTest p ip).Inv := by
  have hlocked : (s.pc p).locked = some ip := by rw [hp]; rfl
  have howner := h.owner p ip (Or.inr hlocked)
  have href := h.lockRef p ip (Or.inr hlocked)
  unfold Icache.ilockTest
  split
  next hv =>
    have hready := h.setPc_ready (p := p) (by rw [hp]; rfl)
    obtain ⟨_, _, hsame⟩ := h.settled ip (h.ref_pos href) hv hf
    refine hready.setHold howner href (by simp [Icache.setPc, InodePc.locked]) hv ?_ (Or.inr ?_)
    · intro q hq
      by_cases hqp : q = p
      · simp [Icache.FreedBy, Icache.setPc, hqp, InodePc.freed] at hq
      · exact hf q (by simpa [Icache.FreedBy, Icache.setPc, Function.update_of_ne hqp] using hq)
    · apply hsame
      intro q hq
      have heq := (h.owner q ip (Or.inl (by simp [hq]))).symm.trans howner
      cases Option.some.inj heq
      simp [h.fresh p ip hlocked] at hq
  next hv =>
    refine h.setPc (by rw [hp]; rfl) ?_ ?_
    · intro i hi
      have he : ip = i := by simpa [InodePc.locked] using hi
      subst i
      exact ⟨howner, href, h.fresh p ip hlocked⟩
    · intro i hi
      cases hi
      simpa using hv

theorem Icache.Inv.ilockLoad {s : Icache Pid} (h : s.Inv) {p : Pid} {ip : InodeSlot}
    (hp : s.pc p = .lockLoad ip) : (s.ilockLoad p ip).Inv := by
  have hlocked : (s.pc p).locked = some ip := by rw [hp]; rfl
  have howner := h.owner p ip (Or.inr hlocked)
  have href := h.lockRef p ip (Or.inr hlocked)
  have hinv := h.loadInvalid p ip hp
  have hf : ∀ q, ¬ s.FreedBy q ip := by
    intro q hq
    simp [h.freeValid q ip hq] at hinv
  unfold Icache.ilockLoad
  split
  next => exact h.panic
  next ht =>
    have hready := h.setPc_ready (p := p) (by rw [hp]; rfl)
    let din := s.disk (s.inum ip)
    have hdin : ((s.setPc p .ready).setDin ip din).Inv := by
      refine hready.rewrite rfl fun i hr hv hn => ?_
      have hi : i ≠ ip := by
        rintro rfl
        rw [show (s.setPc p .ready).valid i = s.valid i from rfl, hinv] at hv
        simp at hv
      have hset := hready.settled i hr hv hn
      simpa [Icache.setDin, Function.update_of_ne hi] using hset
    have hvalid : (((s.setPc p .ready).setDin ip din).setValid ip true).Inv := by
      exact { hdin with
        holdValid := by
          intro q i hq
          by_cases hi : i = ip
          · simp [Icache.setValid, hi]
          · simpa [Icache.setValid, Function.update_of_ne hi] using hdin.holdValid q i hq
        loadInvalid := by
          intro q i hq
          have hi : i ≠ ip := by
            rintro rfl
            have hqp : q ≠ p := by
              rintro rfl
              simp [Icache.setValid, Icache.setDin, Icache.setPc] at hq
            have hq' : s.pc q = .lockLoad i := by
              simpa [Icache.setValid, Icache.setDin, Icache.setPc, Function.update_of_ne hqp] using hq
            have heq := (h.owner q i (Or.inr (by rw [hq']; rfl))).symm.trans howner
            exact hqp (Option.some.inj heq)
          simpa [Icache.setValid, Function.update_of_ne hi] using hdin.loadInvalid q i hq
        freeValid := by
          intro q i hq
          by_cases hi : i = ip
          · simp [Icache.setValid, hi]
          · simpa [Icache.setValid, Function.update_of_ne hi] using hdin.freeValid q i hq
        settled := by
          intro i hr hv hn
          by_cases hi : i = ip
          · subst i
            have hsame : (((s.setPc p .ready).setDin ip din).setValid ip true).din ip = din := by
              simp [Icache.setValid, Icache.setDin]
            rw [hsame]
            exact ⟨ht, ht, fun _ => rfl⟩
          · exact hdin.settled i hr
              (by simpa [Icache.setValid, Function.update_of_ne hi] using hv) hn }
    refine hvalid.setHold howner href
      (by simp [Icache.setValid, Icache.setDin, Icache.setPc, InodePc.locked])
      (by simp [Icache.setValid]) ?_ (Or.inr (by simp [Icache.setValid, Icache.setDin, Icache.setPc, din]))
    intro q hq
    by_cases hqp : q = p
    · simp [Icache.FreedBy, Icache.setValid, Icache.setDin, Icache.setPc, hqp, InodePc.freed] at hq
    · exact hf q (by simpa [Icache.FreedBy, Icache.setValid, Icache.setDin, Icache.setPc,
        Function.update_of_ne hqp] using hq)

end Xv6
