import Xv6.Vm

namespace Xv6

open Bytes Prog

variable {d : PageDir} {s : Kmem} {va : Nat} {p : List Byte}

namespace PageDir

/-- The page that a user program finds at va. -/
def userPage (d : PageDir) (va : Nat) : Option Nat :=
  let e := d.load (PDX va, PTX va)
  if e.present = true ∧ e.user = true then some e.addr else none

/-- Where the byte at address va is: its page and the place in the page. -/
def place (d : PageDir) (va : Nat) : Option (Nat × Nat) :=
  (d.userPage (va % 2 ^ 32)).map fun f => (f, va % PGSIZE)

/-- Whether the directory has a table for va. -/
def hasTable (d : PageDir) (va : Nat) : Bool := (d.pde (PDX va)).isSome

end PageDir

theorem walkpgdir_lookup (d : PageDir) (va : Nat) (s : Kmem) :
    walkpgdir d va false s = (.ok (d, if d.hasTable va then some (PDX va, PTX va) else none),
      s) := by
  unfold walkpgdir PageDir.hasTable
  cases d.pde (PDX va) <;> rfl

theorem uva2ka_run (d : PageDir) (va : Nat) (s : Kmem) :
    uva2ka d va s = (if d.hasTable va then .ok (d.userPage va) else .error .nullPte, s) := by
  unfold uva2ka
  simp only [bind, walkpgdir_lookup]
  cases ht : d.hasTable va with
  | false => rfl
  | true =>
    simp only [if_true, PageDir.userPage]
    cases hp : (d.load (PDX va, PTX va)).present <;> cases hu :
      (d.load (PDX va, PTX va)).user <;> rfl

theorem hasTable_of_userPage (h : (d.userPage va).isSome) : d.hasTable va = true := by
  unfold PageDir.userPage PageDir.load at h
  unfold PageDir.hasTable
  cases hd : d.pde (PDX va) with
  | some t => rfl
  | none => simp [hd, Pte.present, Pte.zero] at h

theorem same_entry {a b : Nat} (h : a / PGSIZE = b / PGSIZE) : PDX a = PDX b ∧ PTX a = PTX b := by
  simp only [PGSIZE] at h
  constructor
  · apply Fin.ext
    simp only [PDX, NPDENTRIES, Fin.val_ofNat]
    omega
  · apply Fin.ext
    simp only [PTX, NPTENTRIES, Fin.val_ofNat]
    omega

theorem userPage_congr {a b : Nat} (h : a / PGSIZE = b / PGSIZE) : d.userPage a = d.userPage b := by
  obtain ⟨hd, ht⟩ := same_entry h
  unfold PageDir.userPage
  rw [hd, ht]

theorem hasTable_congr {a b : Nat} (h : a / PGSIZE = b / PGSIZE) : d.hasTable a = d.hasTable b := by
  unfold PageDir.hasTable
  rw [(same_entry h).1]

theorem pgrounddown_div (va : Nat) : PGROUNDDOWN va / PGSIZE = va / PGSIZE := by
  simp only [PGROUNDDOWN, PGSIZE]
  omega

/-- The bytes from va on are overwritten with p and no others. A byte that two addresses share holds
what the last one was given. -/
structure Copied (d : PageDir) (va : Nat) (p : List Byte) (m m' : Nat → Block PGSIZE) : Prop where
  copied : ∀ i f o, (hi : i < p.length) → d.place (va + i) = some (f, o) →
    (∀ j, i < j → j < p.length → d.place (va + j) ≠ some (f, o)) → byte (m' f) o = p[i]
  others : ∀ f o, (∀ i < p.length, d.place (va + i) ≠ some (f, o)) → byte (m' f) o = byte (m f) o

theorem Copied.nil {m : Nat → Block PGSIZE} : Copied d va [] m m :=
  ⟨fun _ _ _ hi => by simp at hi, fun _ _ _ => rfl⟩

/-- The part of p that goes to the page of va. -/
def chunk (va : Nat) (p : List Byte) : Nat := min (PGSIZE - va % PGSIZE) p.length

theorem chunk_le : chunk va p ≤ p.length := Nat.min_le_right _ _

theorem chunk_pos (va : Nat) (hp : p ≠ []) : 0 < chunk va p := by
  have hlen := List.length_pos_iff.mpr hp
  have hmod := Nat.mod_lt va (by decide : 0 < PGSIZE)
  unfold chunk
  omega

theorem chunk_page (hva : va < 2 ^ 32) {i : Nat} (hi : i < chunk va p) :
    (va + i) % 2 ^ 32 = va + i ∧ (va + i) / PGSIZE = va / PGSIZE ∧
      (va + i) % PGSIZE = va % PGSIZE + i := by
  simp only [chunk, PGSIZE] at *
  omega

theorem next_page (va : Nat) {i : Nat} (hi : i < (p.drop (chunk va p)).length) :
    ((PGROUNDDOWN va + PGSIZE) % 2 ^ 32 + i) % 2 ^ 32 = (va + (chunk va p + i)) % 2 ^ 32 ∧
      ((PGROUNDDOWN va + PGSIZE) % 2 ^ 32 + i) % PGSIZE = (va + (chunk va p + i)) % PGSIZE := by
  simp only [List.length_drop, chunk, PGROUNDDOWN, PGSIZE] at *
  omega

theorem place_next {i : Nat} (hi : i < (p.drop (chunk va p)).length) :
    d.place ((PGROUNDDOWN va + PGSIZE) % 2 ^ 32 + i) = d.place (va + (chunk va p + i)) := by
  obtain ⟨hpage, hoff⟩ := next_page va hi
  unfold PageDir.place
  rw [hpage, hoff]

theorem place_chunk {f i : Nat} (hva : va < 2 ^ 32) (hf : d.userPage va = some f)
    (hi : i < chunk va p) :
    d.place (va + i) = some (f, va % PGSIZE + i) := by
  obtain ⟨hwrap, hpage, hoff⟩ := chunk_page hva hi
  unfold PageDir.place
  rw [hwrap, userPage_congr hpage, hf, hoff]
  rfl

theorem Copied.cons {f : Nat} {m m' : Nat → Block PGSIZE} (hva : va < 2 ^ 32)
    (hf : d.userPage va = some f)
    (h : Copied d ((PGROUNDDOWN va + PGSIZE) % 2 ^ 32) (p.drop (chunk va p))
      (Function.update m f (put (m f) (va % PGSIZE) (p.take (chunk va p)))) m') : Copied d va p m m' := by
  have hle : chunk va p ≤ p.length := chunk_le
  have hlen : (p.take (chunk va p)).length = chunk va p := by simp [hle]
  have hdrop : (p.drop (chunk va p)).length = p.length - chunk va p := List.length_drop
  constructor
  · intro i g o hi hg hlast
    by_cases hc : i < chunk va p
    · have hrest := h.others g o fun j hj => by
        rw [place_next hj]
        exact hlast _ (by omega) (by omega)
      obtain ⟨rfl, rfl⟩ := Prod.mk.inj (Option.some.inj ((place_chunk hva hf hc).symm.trans hg))
      have hoff := chunk_page hva hc
      have hin : va % PGSIZE + i < PGSIZE := by
        rw [← hoff.2.2]
        exact Nat.mod_lt _ (by decide)
      rw [hrest, Function.update_self, byte_put_inside _ (by omega) (by omega) hin 0]
      simp [hc, hi]
    · have hj : i - chunk va p < (p.drop (chunk va p)).length := by omega
      have hplace := place_next (d := d) hj
      rw [show chunk va p + (i - chunk va p) = i by omega] at hplace
      have hrest := h.copied (i - chunk va p) g o hj (hplace.trans hg) fun j hlt hjl => by
        rw [place_next hjl]
        exact hlast _ (by omega) (by omega)
      rw [hrest, List.getElem_drop]
      congr 1
      omega
  · intro g o hno
    have hrest := h.others g o fun j hj => by
      rw [place_next hj]
      exact hno _ (by omega)
    rw [hrest]
    by_cases hg : g = f
    · subst hg
      rw [Function.update_self]
      refine byte_put_outside _ ?_
      rw [hlen]
      by_contra hin
      refine hno (o - va % PGSIZE) (by omega) ?_
      rw [place_chunk (p := p) hva hf (by omega), show va % PGSIZE + (o - va % PGSIZE) = o by omega]
    · rw [Function.update_of_ne hg]

/-- A run of copyout: it copies everything, or it stops at the first byte without a user page; if
there is not even a table for it, it dereferences a null pointer. -/
inductive CopyoutRun (d : PageDir) (va : Nat) (p : List Byte) (s : Kmem) :
    Except VmPanic Int × Kmem → Prop
  | done {t : Kmem} : (∀ i < p.length, (d.userPage ((va + i) % 2 ^ 32)).isSome) → t.freelist = s.freelist →
      Copied d va p s.mem t.mem → CopyoutRun d va p s (.ok 0, t)
  | stopped {t : Kmem} (i : Nat) : t.freelist = s.freelist → i < p.length →
      (∀ j < i, (d.userPage ((va + j) % 2 ^ 32)).isSome) →
      d.userPage ((va + i) % 2 ^ 32) = none →
      CopyoutRun d va p s (if d.hasTable ((va + i) % 2 ^ 32) then .ok (-1) else .error .nullPte, t)

theorem copyoutPages_run {n : Nat} (hva : va < 2 ^ 32) (hn : p.length ≤ n) :
    CopyoutRun d va p s (copyoutPages d n va p s) := by
  induction n generalizing va p s with
  | zero =>
    have hp : p = [] := List.length_eq_zero_iff.mp (by omega)
    subst hp
    exact .done (by simp) rfl .nil
  | succ n ih =>
    unfold copyoutPages
    by_cases hp : p = []
    · subst hp
      exact .done (by simp) rfl .nil
    have hlen : p.length ≠ 0 := fun h0 => hp (List.length_eq_zero_iff.mp h0)
    have hwrap : (va + 0) % 2 ^ 32 = va := by simpa using Nat.mod_eq_of_lt hva
    have hpage := pgrounddown_div va
    rw [if_neg hlen]
    simp only [bind, uva2ka_run, hasTable_congr hpage, userPage_congr hpage]
    cases hf : d.userPage va with
    | none =>
      have hstop := CopyoutRun.stopped (s := s) (t := s) (p := p) 0 rfl (by omega) (by simp)
        (by rw [hwrap]; exact hf)
      rw [hwrap] at hstop
      cases ht : d.hasTable va with
      | false => simpa [ht] using hstop
      | true =>
        rw [ht, if_pos rfl] at hstop
        exact hstop
    | some f =>
      have ht : d.hasTable va = true := hasTable_of_userPage (by simp [hf])
      simp only [ht, if_true]
      have hoff : va - PGROUNDDOWN va = va % PGSIZE := by
        simp only [PGROUNDDOWN, PGSIZE]
        omega
      have hpos := chunk_pos va hp
      have hin : ∀ j < chunk va p, (d.userPage ((va + j) % 2 ^ 32)).isSome := by
        intro j hj
        obtain ⟨hw, hpg, _⟩ := chunk_page hva hj
        rw [hw, userPage_congr hpg, hf]
        rfl
      have hdrop : (p.drop (chunk va p)).length = p.length - chunk va p := List.length_drop
      rw [hoff]
      show CopyoutRun d va p s (copyoutPages d n ((PGROUNDDOWN va + PGSIZE) % 2 ^ 32) (p.drop (chunk va p))
        { s with mem := Function.update s.mem f (put (s.mem f) (va % PGSIZE) (p.take (chunk va p))) })
      generalize hr : copyoutPages d n _ _ _ = r
      have hrec := ih
        (s := { s with mem := Function.update s.mem f (put (s.mem f) (va % PGSIZE) (p.take (chunk va p))) })
        (Nat.mod_lt (PGROUNDDOWN va + PGSIZE) (by decide : 0 < 2 ^ 32)) (p := p.drop (chunk va p)) (by omega)
      rw [hr] at hrec
      have hsplit : ∀ i, (∀ j < i, j < p.length - chunk va p →
          (d.userPage (((PGROUNDDOWN va + PGSIZE) % 2 ^ 32 + j) % 2 ^ 32)).isSome) →
          ∀ j < chunk va p + i, j < p.length → (d.userPage ((va + j) % 2 ^ 32)).isSome := by
        intro i hi j hj hjp
        by_cases hc : j < chunk va p
        · exact hin j hc
        · have hnext := (next_page va (p := p) (i := j - chunk va p) (by omega)).1
          have := hi (j - chunk va p) (by omega) (by omega)
          rwa [hnext, show chunk va p + (j - chunk va p) = j by omega] at this
      cases hrec with
      | done hall hfree hcopied =>
        refine .done ?_ hfree (.cons hva hf hcopied)
        intro i hi
        exact hsplit p.length (fun j _ hj => hall j (by omega)) i (by omega) hi
      | stopped i hfree hi hbefore hnone =>
        have hnext := (next_page va hi).1
        rw [hnext] at hnone ⊢
        exact .stopped (chunk va p + i) hfree (by omega)
          (fun j hj => hsplit i (fun k hk _ => hbefore k hk) j hj (by omega)) hnone

/-- What copyout is for: it fails if some byte has no user page, and otherwise copies them all. -/
def CopiesOut (d : PageDir) (va : Nat) (p : List Byte) (s : Kmem) : Prop :=
  ∃ r t, copyout d va p s = (.ok r, t) ∧ t.freelist = s.freelist ∧
    if ∀ i < p.length, (d.userPage ((va + i) % 2 ^ 32)).isSome then r = 0 ∧
      Copied d va p s.mem t.mem else r = -1

/-- copyout does so just when there is a table for every page that it comes to. -/
theorem copyout_copies_iff (hva : va < 2 ^ 32) :
    CopiesOut d va p s ↔ ∀ i < p.length, (∀ j < i, (d.userPage ((va + j) % 2 ^ 32)).isSome) →
      d.hasTable ((va + i) % 2 ^ 32) = true := by
  have hrun : CopyoutRun d va p s (copyout d va p s) := copyoutPages_run hva Nat.le.refl
  unfold CopiesOut
  generalize copyout d va p s = x at hrun
  cases hrun with
  | done hall hfree hcopied =>
    constructor
    · intro _ i hi _
      exact hasTable_of_userPage (hall i hi)
    · intro _
      exact ⟨0, _, rfl, hfree, by rw [if_pos hall]; exact ⟨rfl, hcopied⟩⟩
  | stopped i hfree hi hbefore hnone =>
    have hnot : ¬ ∀ i < p.length, (d.userPage ((va + i) % 2 ^ 32)).isSome := by
      intro hall
      have hsome := hall i hi
      rw [hnone] at hsome
      exact absurd hsome Bool.false_ne_true
    constructor
    · rintro ⟨r, t, hr, _, hspec⟩ k hk hkb
      cases ht : d.hasTable ((va + i) % 2 ^ 32) with
      | false =>
        rw [ht, if_neg Bool.false_ne_true] at hr
        exact absurd (congrArg Prod.fst hr) (by simp)
      | true =>
        rcases Nat.lt_trichotomy k i with hlt | rfl | hgt
        · exact hasTable_of_userPage (hbefore k hlt)
        · exact ht
        · have hsome := hkb i hgt
          rw [hnone] at hsome
          exact absurd hsome Bool.false_ne_true
    · intro hcond
      refine ⟨-1, _, by rw [if_pos (hcond i hi hbefore)], hfree, by rw [if_neg hnot]⟩

/-- A process of one page. -/
def onePage : PageDir :=
  ⟨0x1000, fun i => if i = 0 then some ⟨0x1001, fun j => if j = 0 then ⟨0x1002, 7⟩ else Pte.zero⟩
    else none⟩

/-- The address where exec puts a string of 64 MB on the stack of a small program; there is no table
for it. -/
theorem copyout_null_dereference :
    ¬ CopiesOut onePage 0xFC003000 [65] ⟨[], fun _ => zero⟩ ∧
      (copyout onePage 0xFC003000 [65] ⟨[], fun _ => zero⟩).1 = .error .nullPte := by
  have hrun : (copyout onePage 0xFC003000 [65] ⟨[], fun _ => zero⟩).1 = .error .nullPte := rfl
  refine ⟨?_, hrun⟩
  rintro ⟨r, t, hr, _⟩
  rw [hr] at hrun
  cases hrun

theorem copyout_copies_one_page : CopiesOut onePage 0xFFE [1, 2] ⟨[], fun _ => zero⟩ := by
  refine (copyout_copies_iff (by decide)).mpr ?_
  decide

end Xv6
