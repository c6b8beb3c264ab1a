import Xv6.BioRuns

namespace Xv6

/-- Two buffers can be had at once, or one and the home block is cached already. -/
def Store.Roomy (u : Store) (home : BlockAddr) : Prop :=
  (u.DirtyAt home ∧ ∃ k, (u.buf k).dirty = false) ∨ ∀ k, (u.buf k).dirty = false

theorem exists_other_slot : ∀ i : BufSlot, ∃ k, k ≠ i := by decide

section

variable {s u : Store} {l : Log} {f : Disk} {ws : List (BlockAddr × DiskBlock)} {a c : BlockAddr}

theorem roomy_first (h : s.After u l f ws []) (hidle : s.Idle) (hr : a.2 < FSSIZE)
    (hroom : u.Roomy c) :
    u.Available a := by
  refine available_of_room h hidle hr (by simp) (Or.inr ?_)
  rcases hroom with ⟨_, k, hk⟩ | hall
  · exact ⟨k, by simp, hk⟩
  · exact ⟨0, by simp, hall 0⟩

theorem roomy_second {t : Store} {i : BufSlot} {b : BlockAddr} {v : DiskBlock}
    (h : s.After u l f ws []) (ht : s.After t l f ws [i]) (hi : t.Holds i b v) (hidle : s.Idle)
    (hr : a.2 < FSSIZE) (hne : b ≠ a)
    (hroom : u.DirtyAt a ∨ ∀ k, (u.buf k).dirty = false) : t.Available a := by
  refine available_of_room ht hidle hr (by simpa [hi.addr] using hne) ?_
  rcases hroom with hd | hall
  · exact Or.inl ((ht.dirty a).mpr ((h.dirty a).mp hd))
  · obtain ⟨k, hk⟩ := exists_other_slot i
    refine Or.inr ⟨k, by simpa using hk, ?_⟩
    by_contra hd
    have hdirty := (ht.dirty _).mp ⟨k, rfl, by simpa using hd⟩
    obtain ⟨j, _, hj⟩ := (h.dirty _).mpr hdirty
    simp [hall j] at hj

theorem copy_after {v : Store} {held : List BufSlot} {dst src : BufSlot} {x y : DiskBlock}
    (h : s.After v l f ws held) (hd : v.Holds dst a x) (hs : v.Holds src c y) (hne : src ≠ dst)
    (ha : a.1 ≠ 0) (hc : c.1 ≠ 0) :
    (do copyData dst src; bwrite dst; brelse src; brelse dst : Bio Unit).wp
      (fun _ t => s.After t l (Function.update f a y) (ws ++ [(a, y)]) ((held.erase src).erase dst))
      (fun _ _ => False) v := by
  have hw := bwrite_after (v := y) h ha hd
  simp only [Prog.wp_bind, copyData, Prog.wp_get, hs.data] at hw ⊢
  refine Prog.wp_imp hw fun _ t ht => Prog.wp_imp ht fun _ t ht => ?_
  obtain ⟨ht, hdt, hkeep⟩ := ht
  refine Prog.wp_imp (brelse_after ht (hkeep src c y hne hs) hc) ?_
  rintro _ z ⟨hz, hkeep'⟩
  exact Prog.wp_imp (brelse_after hz (hkeep' dst a y hne.symm hdt) ha) fun _ _ h => h.1

/-- Two breads one after the other. They fail only without room, and then nothing was written. -/
theorem bread_two {k : BufSlot → BufSlot → Bio Unit} {Q : Unit → Store → Prop}
    {E : Halt → Store → Prop} (h : s.After u l f ws []) (ha : a.1 ≠ 0) (hc : c.1 ≠ 0) (hne : a ≠ c)
    (hk : ∀ i j v, s.After v l f ws [j, i] → v.Holds i a (f a) → v.Holds j c (f c) → i ≠ j →
      (k i j).wp Q E v)
    (he : ∀ e t, t.issued = u.issued →
      ¬ (s.Idle ∧ a.2 < FSSIZE ∧ c.2 < FSSIZE ∧ u.Roomy c) → E e t) :
    (do let i ← bread a; let j ← bread c; k i j : Bio Unit).wp Q E u := by
  rw [Prog.wp_bind]
  refine Prog.wp_mono (bread_after h ha) ?_ ?_
  · rintro i t ⟨ht, hi, _⟩
    rw [Prog.wp_bind]
    refine Prog.wp_mono (bread_after ht hc) ?_ ?_
    · rintro j v ⟨hv, hj, hkeep⟩
      obtain ⟨hij, hi'⟩ := hkeep i a (f a) hi
      exact hk i j v hv hi' hj hij
    · rintro e v ⟨hissued, hav⟩
      refine he e v (by rw [hissued, ht.issued, h.issued]) fun ⟨hidle, _, hhome, hroom⟩ => hav ?_
      exact roomy_second h ht hi hidle hhome hne (hroom.imp And.left id)
  · rintro e t ⟨hissued, hav⟩
    exact he e t hissued fun ⟨hidle, hslot, _, hroom⟩ => hav (roomy_first h hidle hslot hroom)

theorem writeLogBlock_after {entry : Nat × Nat} {E : Halt → Store → Prop} (h : s.After u l f ws [])
    (hdev : l.dev ≠ 0) (hne : l.slotAddr entry.2 ≠ l.homeAddr entry.1)
    (he : ∀ e t, t.issued = u.issued → ¬ (s.Idle ∧ (l.slotAddr entry.2).2 < FSSIZE ∧
      (l.homeAddr entry.1).2 < FSSIZE ∧ u.Roomy (l.homeAddr entry.1)) → E e t) :
    (writeLogBlock l entry).wp
      (fun _ t => s.After t l (Function.update f (l.slotAddr entry.2) (f (l.homeAddr entry.1)))
        (ws ++ [(l.slotAddr entry.2, f (l.homeAddr entry.1))]) []) E u := by
  refine bread_two h hdev hdev hne (fun i j v hv hi hj hij => ?_) he
  have hcopy := copy_after hv hi hj hij.symm hdev hdev
  exact Prog.wp_mono hcopy (fun _ t h => by simpa using h) fun _ _ h => h.elim

theorem installBlock_after {entry : Nat × Nat} {E : Halt → Store → Prop} (h : s.After u l f ws [])
    (hdev : l.dev ≠ 0) (hne : l.slotAddr entry.2 ≠ l.homeAddr entry.1)
    (he : ∀ e t, t.issued = u.issued → ¬ (s.Idle ∧ (l.slotAddr entry.2).2 < FSSIZE ∧
      (l.homeAddr entry.1).2 < FSSIZE ∧ u.Roomy (l.homeAddr entry.1)) → E e t) :
    (installBlock l entry).wp
      (fun _ t => s.After t l (Function.update f (l.homeAddr entry.1) (f (l.slotAddr entry.2)))
        (ws ++ [(l.homeAddr entry.1, f (l.slotAddr entry.2))]) []) E u := by
  refine bread_two h hdev hdev hne (fun i j v hv hi hj hij => ?_) he
  have hcopy := copy_after hv hj hi hij hdev hdev
  refine Prog.wp_mono hcopy (fun _ t h => ?_) fun _ _ h => h.elim
  have hheld : ([j, i].erase i).erase j = [] := by
    simp [hij.symm]
  simpa [hheld] using h

theorem writeHead_after {E : Halt → Store → Prop} (h : s.After u l f ws []) (hdev : l.dev ≠ 0)
    (he : ∀ e t, t.issued = u.issued →
      ¬ (s.Idle ∧ l.start < FSSIZE ∧ ∃ k, (u.buf k).dirty = false) → E e t) :
    writeHead.wp
      (fun _ t => s.After t l (Function.update f l.headAddr (encodeHead l.lh (f l.headAddr)))
        (ws ++ [(l.headAddr, encodeHead l.lh (f l.headAddr))]) []) E u := by
  simp only [writeHead, Prog.wp_bind, Prog.wp_get, h.log]
  refine Prog.wp_mono (bread_after h (a := l.headAddr) hdev) ?_ ?_
  · rintro i t ⟨ht, hi, _⟩
    have hw := bwrite_after (v := encodeHead l.lh (f l.headAddr)) ht hdev hi
    simp only [Prog.wp_bind, hi.data] at hw ⊢
    refine Prog.wp_mono hw (fun _ t ht => ?_) fun _ _ h => h.elim
    refine Prog.wp_mono ht (fun _ t ht => ?_) fun _ _ h => h.elim
    obtain ⟨ht, hi, _⟩ := ht
    exact Prog.wp_mono (brelse_after ht hi hdev) (fun _ _ h => by simpa using h.1)
      fun _ _ h => h.elim
  · rintro e t ⟨hissued, hav⟩
    refine he e t hissued fun hcrash => hav ?_
    obtain ⟨hidle, hr, k, hk⟩ := hcrash
    exact available_of_room h hidle hr (by simp) (Or.inr ⟨k, by simp, hk⟩)

end

end Xv6
