import Mathlib.Algebra.BigOperators.Group.Finset.Piecewise
import Mathlib.Algebra.Order.BigOperators.Group.Finset
import Xv6.IcacheSteps

namespace Xv6

section

variable {Pid : Type} [Fintype Pid]

/-- A process that is inside ilock on the entry, or that ilock has returned to. -/
def Icache.Locking (s : Icache Pid) (p : Pid) (ip : InodeSlot) : Prop :=
  s.hold p ip ≠ .none ∨ (s.pc p).locked = some ip

def Icache.FreedBy (s : Icache Pid) (p : Pid) (ip : InodeSlot) : Prop :=
  (s.pc p).freed = some ip

/-- What holds between any two sections: references are counted, an inode number has one
entry, locks have one owner, nobody holds an entry that an iput is freeing, and every
other valid entry agrees with the disk up to changes of its lock owner. -/
structure Icache.Inv (s : Icache Pid) : Prop where
  counted : ∀ ip, s.ref ip = ∑ p, s.refs p ip
  unique : ∀ i j, 0 < s.ref i → 0 < s.ref j → s.inum i = s.inum j → i = j
  owner : ∀ p ip, s.Locking p ip → s.lock ip = some p
  lockRef : ∀ p ip, s.Locking p ip → 0 < s.refs p ip
  freeRef : ∀ p ip, s.FreedBy p ip → 0 < s.refs p ip
  fresh : ∀ p ip, (s.pc p).locked = some ip → s.hold p ip = .none
  holdValid : ∀ p ip, s.hold p ip ≠ .none → s.valid ip = true
  loadInvalid : ∀ p ip, s.pc p = .lockLoad ip → s.valid ip = false
  freeValid : ∀ p ip, s.FreedBy p ip → s.valid ip = true
  freeAlone : ∀ p ip, s.FreedBy p ip → ∀ q, s.hold q ip = .none
  freeOnce : ∀ p q ip, s.FreedBy p ip → s.FreedBy q ip → p = q
  settled : ∀ ip, 0 < s.ref ip → s.valid ip = true → (∀ q, ¬ s.FreedBy q ip) →
    (s.din ip).type ≠ 0 ∧ (s.disk (s.inum ip)).type ≠ 0 ∧
      ((∀ q, s.hold q ip ≠ .changed) → s.din ip = s.disk (s.inum ip))

theorem Icache.Inv.refs_le_ref {s : Icache Pid} (h : s.Inv) (p : Pid) (ip : InodeSlot) :
    s.refs p ip ≤ s.ref ip := by
  rw [h.counted]
  exact Finset.single_le_sum (f := fun q => s.refs q ip) (fun _ _ => Nat.zero_le _)
    (Finset.mem_univ p)

theorem Icache.Inv.alone_of_ref_one {s : Icache Pid} (h : s.Inv) {p q : Pid} {ip : InodeSlot}
    (hone : s.ref ip = 1) (hp : 0 < s.refs p ip) (hq : 0 < s.refs q ip) : q = p := by
  classical
  by_contra hne
  have hsum := h.counted ip
  have hpair : s.refs p ip + s.refs q ip ≤ ∑ r, s.refs r ip := by
    rw [← Finset.sum_pair (f := fun r => s.refs r ip) (Ne.symm hne)]
    exact Finset.sum_le_sum_of_subset (Finset.subset_univ _)
  omega

theorem Icache.Inv.inum_ne {s : Icache Pid} (h : s.Inv) {i ip : InodeSlot} (hi : 0 < s.ref i)
    (hr : 0 < s.ref ip) (hne : i ≠ ip) : s.inum i ≠ s.inum ip :=
  fun he => hne (h.unique i ip hi hr he)

theorem Icache.Inv.ref_pos {s : Icache Pid} (h : s.Inv) {p : Pid} {ip : InodeSlot}
    (hr : 0 < s.refs p ip) : 0 < s.ref ip :=
  lt_of_lt_of_le hr (h.refs_le_ref p ip)

theorem Icache.Inv.not_freed_of_hold {s : Icache Pid} (h : s.Inv) {p : Pid} {ip : InodeSlot}
    (hh : s.hold p ip ≠ .none) (q : Pid) : ¬ s.FreedBy q ip :=
  fun hq => hh (h.freeAlone q ip hq p)

theorem Icache.Inv.not_locking_of_free {s : Icache Pid} (h : s.Inv) {ip : InodeSlot}
    (hl : s.lock ip = none) (q : Pid) : ¬ s.Locking q ip := by
  intro hq
  simp [h.owner q ip hq] at hl

theorem Icache.Inv.coherent {s : Icache Pid} (h : s.Inv) : s.Coherent := by
  intro p ip hc
  have hlock : s.Locking p ip := Or.inl (by simp [hc])
  have href : 0 < s.ref ip := lt_of_lt_of_le (h.lockRef p ip hlock) (h.refs_le_ref p ip)
  have hfree : ∀ q, ¬ s.FreedBy q ip := by
    intro q hq
    simp [h.freeAlone q ip hq p] at hc
  have hset := h.settled ip href (h.holdValid p ip (by simp [hc])) hfree
  refine ⟨hset.2.2 ?_, hset.1⟩
  intro q hq
  have hqp := (h.owner q ip (Or.inl (by simp [hq]))).symm.trans (h.owner p ip hlock)
  cases Option.some.inj hqp
  simp [hc] at hq

theorem Icache.boot_inv (disk : Nat → Dinode) : (Icache.boot disk : Icache Pid).Inv := by
  constructor <;> simp [Icache.boot, Icache.Locking, Icache.FreedBy, InodePc.freed, InodePc.locked]

omit [Fintype Pid] in
theorem Icache.find_spec {s : Icache Pid} {inum : Nat} {ip : InodeSlot}
    (h : s.find inum = some ip) :
    0 < s.ref ip ∧ s.inum ip = inum := by
  simpa using List.find?_some h

omit [Fintype Pid] in
theorem Icache.find_none {s : Icache Pid} {inum : Nat} (h : s.find inum = none) (ip : InodeSlot)
    (hr : 0 < s.ref ip) : s.inum ip ≠ inum := by
  have := List.find?_eq_none.mp h ip (List.mem_finRange ip)
  simp only [decide_eq_true_eq, not_and] at this
  exact this hr

theorem Icache.Inv.panic {s : Icache Pid} (h : s.Inv) :
    ({ s with panicked := true } : Icache Pid).Inv :=
  { h with }

end

variable {Pid : Type} [DecidableEq Pid] [Fintype Pid]

theorem sum_refs_setRef (s : Icache Pid) (p : Pid) (ip : InodeSlot) (total own : Nat)
    (i : InodeSlot) :
    ∑ q, (s.setRef p ip total own).refs q i + (if i = ip then s.refs p ip else 0) =
      ∑ q, s.refs q i + (if i = ip then own else 0) := by
  have hne : ∀ q ∈ Finset.univ.erase p, (s.setRef p ip total own).refs q i = s.refs q i := by
    intro q hq
    simp [Icache.setRef, Function.update_of_ne (Finset.ne_of_mem_erase hq)]
  have hnew := Finset.add_sum_erase Finset.univ (fun q => (s.setRef p ip total own).refs q i)
    (Finset.mem_univ p)
  have hold := Finset.add_sum_erase Finset.univ (fun q => s.refs q i) (Finset.mem_univ p)
  rw [Finset.sum_congr rfl hne] at hnew
  by_cases hi : i = ip
  · subst i
    simp only [Icache.setRef, Function.update_self, if_true] at hnew ⊢
    omega
  · simp only [Icache.setRef, Function.update_self, Function.update_of_ne hi, hi,
      if_false] at hnew ⊢
    omega

theorem Icache.Inv.counted_setRef {s : Icache Pid} (h : s.Inv) {p : Pid} {ip : InodeSlot}
    {total own : Nat} (hbal : total + s.refs p ip = s.ref ip + own) (i : InodeSlot) :
    (s.setRef p ip total own).ref i = ∑ q, (s.setRef p ip total own).refs q i := by
  have hsum := sum_refs_setRef s p ip total own i
  have hold := h.counted i
  by_cases he : i = ip
  · subst i
    simp only [if_true] at hsum
    have htotal : (s.setRef p ip total own).ref ip = total := by simp [Icache.setRef]
    omega
  · simp only [he, if_false, Nat.add_zero] at hsum
    rw [hsum, ← hold]
    simp [Icache.setRef, Function.update_of_ne he]

theorem Icache.Inv.addRef {s : Icache Pid} (h : s.Inv) (p : Pid) {ip : InodeSlot}
    (hr : 0 < s.ref ip) : (s.addRef p ip).Inv := by
  have hpos : ∀ i, 0 < (s.addRef p ip).ref i → 0 < s.ref i := by
    intro i hi
    by_cases he : i = ip
    · simpa [he] using hr
    · simpa [Icache.addRef, Icache.setRef, Function.update_of_ne he] using hi
  have hmono : ∀ q i, 0 < s.refs q i → 0 < (s.addRef p ip).refs q i := by
    intro q i hq
    simp only [Icache.addRef, Icache.setRef, Function.update_apply]
    split
    · simp only [Function.update_apply]
      split
      · omega
      · simpa [*] using hq
    · exact hq
  exact { h with
    counted := h.counted_setRef (by omega)
    unique := fun i j hi hj => h.unique i j (hpos i hi) (hpos j hj)
    lockRef := fun q i hq => hmono q i (h.lockRef q i hq)
    freeRef := fun q i hq => hmono q i (h.freeRef q i hq)
    settled := fun i hi => h.settled i (hpos i hi) }

theorem Icache.Inv.dropRef {s : Icache Pid} (h : s.Inv) {p : Pid} {ip : InodeSlot}
    (hr : 0 < s.refs p ip) (hl : s.Locking p ip → 1 < s.refs p ip) (hf : ¬ s.FreedBy p ip) :
    (s.dropRef p ip).Inv := by
  have hle := h.refs_le_ref p ip
  have hpos : ∀ i, 0 < (s.dropRef p ip).ref i → 0 < s.ref i := by
    intro i hi
    by_cases he : i = ip
    · subst i
      omega
    · simpa [Icache.dropRef, Icache.setRef, Function.update_of_ne he] using hi
  have hkeep : ∀ q i, ¬ (q = p ∧ i = ip) → (s.dropRef p ip).refs q i = s.refs q i := by
    intro q i hne
    by_cases hq : q = p
    · subst q
      have hi : i ≠ ip := fun he => hne ⟨rfl, he⟩
      simp [Icache.dropRef, Icache.setRef, Function.update_of_ne hi]
    · simp [Icache.dropRef, Icache.setRef, Function.update_of_ne hq]
  exact { h with
    counted := h.counted_setRef (by omega)
    unique := fun i j hi hj => h.unique i j (hpos i hi) (hpos j hj)
    lockRef := by
      intro q i hq
      by_cases he : q = p ∧ i = ip
      · obtain ⟨rfl, rfl⟩ := he
        have := hl hq
        simp only [Icache.dropRef, Icache.setRef, Function.update_self]
        omega
      · rw [hkeep q i he]
        exact h.lockRef q i hq
    freeRef := by
      intro q i hq
      rw [hkeep q i (fun he => hf (he.1 ▸ he.2 ▸ hq))]
      exact h.freeRef q i hq
    settled := fun i hi => h.settled i (hpos i hi) }

/-- An unused entry is nobody's, so giving it to another inode number disturbs nobody. -/
theorem Icache.Inv.recycle {s : Icache Pid} (h : s.Inv) (p : Pid) {ip : InodeSlot} {inum : Nat}
    (hr : s.ref ip = 0) (hnew : ∀ i, 0 < s.ref i → s.inum i ≠ inum) :
    (s.recycle p ip inum).Inv := by
  have hnone : ∀ q, s.refs q ip = 0 := by
    intro q
    have := h.refs_le_ref q ip
    omega
  have hlock : ∀ q i, s.Locking q i → i ≠ ip := by
    rintro q i hq rfl
    have := h.lockRef q i hq
    have := hnone q
    omega
  have hfree : ∀ q i, s.FreedBy q i → i ≠ ip := by
    rintro q i hq rfl
    have := h.freeRef q i hq
    have := hnone q
    omega
  have hrefs : ∀ q i, i ≠ ip → (s.recycle p ip inum).refs q i = s.refs q i := by
    intro q i hi
    by_cases hq : q = p
    · simp [Icache.recycle, Icache.setRef, Icache.setValid, Icache.setInum, hq, Function.update_of_ne hi]
    · simp [Icache.recycle, Icache.setRef, Icache.setValid, Icache.setInum, Function.update_of_ne hq]
  have hother : ∀ i, i ≠ ip → (s.recycle p ip inum).ref i = s.ref i ∧
      (s.recycle p ip inum).inum i = s.inum i ∧ (s.recycle p ip inum).valid i = s.valid i := by
    intro i hi
    simp [Icache.recycle, Icache.setRef, Icache.setValid, Icache.setInum, Function.update_of_ne hi]
  have hsame : (s.recycle p ip inum).inum ip = inum ∧ (s.recycle p ip inum).valid ip = false := by
    simp [Icache.recycle, Icache.setRef, Icache.setValid, Icache.setInum]
  exact { h with
    counted := by
      have hbal : 1 + s.refs p ip = s.ref ip + (s.refs p ip + 1) := by omega
      exact h.counted_setRef hbal
    unique := by
      intro i j hi hj he
      by_cases hii : i = ip
      · by_cases hjj : j = ip
        · rw [hii, hjj]
        · rw [hii, hsame.1, (hother j hjj).2.1] at he
          rw [(hother j hjj).1] at hj
          exact absurd he.symm (hnew j hj)
      · by_cases hjj : j = ip
        · rw [hjj, hsame.1, (hother i hii).2.1] at he
          rw [(hother i hii).1] at hi
          exact absurd he (hnew i hi)
        · rw [(hother i hii).1] at hi
          rw [(hother j hjj).1] at hj
          rw [(hother i hii).2.1, (hother j hjj).2.1] at he
          exact h.unique i j hi hj he
    lockRef := by
      intro q i hq
      rw [hrefs q i (hlock q i hq)]
      exact h.lockRef q i hq
    freeRef := by
      intro q i hq
      rw [hrefs q i (hfree q i hq)]
      exact h.freeRef q i hq
    holdValid := by
      intro q i hq
      rw [(hother i (hlock q i (Or.inl hq))).2.2]
      exact h.holdValid q i hq
    loadInvalid := by
      intro q i hq
      rw [(hother i (hlock q i (Or.inr (by rw [show s.pc q = .lockLoad i from hq]; rfl)))).2.2]
      exact h.loadInvalid q i hq
    freeValid := by
      intro q i hq
      rw [(hother i (hfree q i hq)).2.2]
      exact h.freeValid q i hq
    settled := by
      intro i hi hv hn
      by_cases hii : i = ip
      · rw [hii, hsame.2] at hv
        simp at hv
      · obtain ⟨h1, h2, h3⟩ := hother i hii
        rw [h1] at hi
        rw [h3] at hv
        have hset := h.settled i hi hv hn
        rw [h2]
        exact hset }

theorem Icache.Inv.iget {s : Icache Pid} (h : s.Inv) (p : Pid) (inum : Nat) :
    (s.iget p inum).Inv := by
  unfold Icache.iget
  split
  next ip hfind => exact h.addRef p (Icache.find_spec hfind).1
  next hfind =>
    split
    next ip hempty =>
      have hr : s.ref ip = 0 := by simpa using List.find?_some hempty
      exact h.recycle p hr (Icache.find_none hfind)
    next => exact h.panic

end Xv6
