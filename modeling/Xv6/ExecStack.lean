import Mathlib.Algebra.GroupWithZero.Nat
import Xv6.Exec
import Xv6.NewImage

namespace Xv6

open Bytes Prog

variable {k : KernelImage} {d : PageDir} {s t : Kmem} {m m' : Nat → Block PGSIZE} {sz sp f va : Nat}

theorem block_ext {n : Nat} {b c : Block n} (h : ∀ o, byte b o = byte c o) : b = c := by
  funext i
  have hi := h i.val
  unfold byte at hi
  rwa [dif_pos i.isLt, dif_pos i.isLt] at hi

/-- Only pages that a user program can reach are written, whatever the outcome. -/
def OnlyUser (d : PageDir) (s t : Kmem) : Prop :=
  t.freelist = s.freelist ∧ ∀ g, (∀ va < 2 ^ 32, d.userPage va ≠ some g) → t.mem g = s.mem g

theorem OnlyUser.refl : OnlyUser d s s := ⟨rfl, fun _ _ => rfl⟩

theorem OnlyUser.trans {u : Kmem} (h : OnlyUser d s t) (h' : OnlyUser d t u) : OnlyUser d s u :=
  ⟨h'.1.trans h.1, fun g hg => (h'.2 g hg).trans (h.2 g hg)⟩

theorem copyoutPages_onlyUser (n : Nat) (p : List Byte) (hva : va < 2 ^ 32) :
    OnlyUser d s (copyoutPages d n va p s).2 := by
  induction n generalizing va p s with
  | zero => exact .refl
  | succ n ih =>
    have hdown : PGROUNDDOWN va < 2 ^ 32 := by
      simp only [PGROUNDDOWN, PGSIZE]
      omega
    unfold copyoutPages
    split
    next => exact .refl
    next =>
      simp only [bind, uva2ka_run]
      cases ht : d.hasTable (PGROUNDDOWN va) with
      | false => exact .refl
      | true =>
        cases hu : d.userPage (PGROUNDDOWN va) with
        | none => exact .refl
        | some pa0 =>
          have hstep : OnlyUser d s { s with mem := Function.update s.mem pa0 (put (s.mem pa0) (va - PGROUNDDOWN va)
              (p.take (min (PGSIZE - (va - PGROUNDDOWN va)) p.length))) } :=
            ⟨rfl, fun g hg => Function.update_of_ne (fun heq => hg _ hdown (hu.trans (congrArg some heq.symm))) _ _⟩
          have hnext : (PGROUNDDOWN va + PGSIZE) % 2 ^ 32 < 2 ^ 32 := Nat.mod_lt _ (by decide)
          exact hstep.trans (ih _ hnext)

/-- The last page below sz is open to the user, the one before it and the kernel's part are not. -/
structure StackPage (d : PageDir) (sz f : Nat) : Prop where
  aligned : sz % PGSIZE = 0
  room : 2 * PGSIZE ≤ sz
  small : sz < KERNBASE
  page : ∀ va < sz, sz - PGSIZE ≤ va → d.userPage va = some f
  guard : ∀ va < sz - PGSIZE, sz - 2 * PGSIZE ≤ va → d.userPage va = none
  kernel : ∀ va < 2 ^ 32, KERNBASE ≤ va → d.userPage va = none

/-- What a user program reads at va. -/
def PageDir.userByte (d : PageDir) (m : Nat → Block PGSIZE) (va : Nat) : Option Byte :=
  (d.place va).map fun x => byte (m x.1) x.2

/-- A user program finds the bytes of p from va on. -/
def Holds (d : PageDir) (m : Nat → Block PGSIZE) (va : Nat) (p : List Byte) : Prop :=
  ∀ j (hj : j < p.length), d.userByte m (va + j) = some p[j]

namespace StackPage

theorem place (h : StackPage d sz f) (hva : va < sz) (hlow : sz - PGSIZE ≤ va) :
    d.place va = some (f, va % PGSIZE) := by
  have hsmall := h.small
  have hwrap : va % 2 ^ 32 = va := Nat.mod_eq_of_lt (by simp only [KERNBASE] at hsmall; omega)
  unfold PageDir.place
  rw [hwrap, h.page va hva hlow]
  rfl

theorem place_inj (h : StackPage d sz f) {va' : Nat} (hva : va < sz) (hlow : sz - PGSIZE ≤ va)
    (hva' : va' < sz) (hlow' : sz - PGSIZE ≤ va') (heq : d.place va = d.place va') : va = va' := by
  rw [h.place hva hlow, h.place hva' hlow'] at heq
  have hoff := (Prod.mk.inj (Option.some.inj heq)).2
  have haligned := h.aligned
  simp only [PGSIZE] at *
  omega

/-- Where a copy of n bytes below sp has gone, if all of them have a user page: it is in the stack
page. Anything that does not fit comes to the guard page or to the kernel's part. -/
theorem contained (h : StackPage d sz f) {n : Nat} (hlow : sz - PGSIZE ≤ sp) (hhigh : sp ≤ sz)
    (hn : 0 < n) (hall : ∀ i < n, (d.userPage ((Exec.below sp n + i) % 2 ^ 32)).isSome) :
    sz - PGSIZE ≤ Exec.below sp n ∧ Exec.below sp n + n ≤ sp ∧ sp < Exec.below sp n + n + 4 := by
  have haligned := h.aligned
  have hroom := h.room
  have hsmall := h.small
  have hguard : ∀ i < n, ¬ (sz - 2 * PGSIZE ≤ (Exec.below sp n + i) % 2 ^ 32 ∧
      (Exec.below sp n + i) % 2 ^ 32 < sz - PGSIZE) := by
    intro i hi hin
    have := hall i hi
    rw [h.guard _ hin.2 hin.1] at this
    cases this
  have hkernel : ∀ i < n, (Exec.below sp n + i) % 2 ^ 32 < KERNBASE := by
    intro i hi
    by_contra hge
    have := hall i hi
    rw [h.kernel _ (Nat.mod_lt _ (by decide)) (by omega)] at this
    cases this
  unfold Exec.below at *
  simp only [PGSIZE, KERNBASE] at *
  by_cases hfit : n ≤ sp
  · have hbelow : (sp + 2 ^ 32 - n % 2 ^ 32) % 2 ^ 32 / 4 * 4 = (sp - n) / 4 * 4 := by omega
    rw [hbelow] at *
    refine ⟨?_, by omega, by omega⟩
    by_contra hlt
    have hfirst := hguard 0 hn
    have hlast := hguard (sz - 2 * 4096 - (sp - n) / 4 * 4)
    omega
  · have hfirst := hkernel 0 hn
    have hlast := hkernel (2 ^ 31 - (sp + 2 ^ 32 - n % 2 ^ 32) % 2 ^ 32 / 4 * 4)
    omega

/-- What a copy to the stack page leaves. -/
structure Pushes (d : PageDir) (sz f va : Nat) (p : List Byte) (m m' : Nat → Block PGSIZE) :
    Prop where
  copied : Holds d m' va p
  kept : ∀ va' < sz, sz - PGSIZE ≤ va' → va' < va ∨ va + p.length ≤ va' →
    d.userByte m' va' = d.userByte m va'
  others : ∀ g ≠ f, m' g = m g

theorem pushes (h : StackPage d sz f) {p : List Byte} (hlow : sz - PGSIZE ≤ va)
    (hhigh : va + p.length ≤ sz) (hc : Copied d va p m m') : Pushes d sz f va p m m' := by
  refine ⟨?_, ?_, ?_⟩
  · intro j hj
    unfold PageDir.userByte
    rw [h.place (by omega) (by omega)]
    refine congrArg some (hc.copied j f _ hj (h.place (by omega) (by omega)) fun i hij hi heq => ?_)
    have hplace : d.place (va + j) = some (f, (va + j) % PGSIZE) := h.place (by omega) (by omega)
    have := h.place_inj (by omega) (by omega) (by omega) (by omega) (heq.trans hplace.symm)
    omega
  · intro va' hva' hlow' hout
    unfold PageDir.userByte
    rw [h.place hva' hlow']
    refine congrArg some (hc.others f _ fun i hi heq => ?_)
    have := h.place_inj (by omega) (by omega) hva' hlow' (heq.trans (h.place hva' hlow').symm)
    omega
  · intro g hg
    refine block_ext fun o => hc.others g o fun i hi heq => ?_
    rw [h.place (by omega) (by omega)] at heq
    exact hg (Prod.mk.inj (Option.some.inj heq)).1.symm

theorem copyout_below (h : StackPage d sz f) {p : List Byte} (hlow : sz - PGSIZE ≤ sp)
    (hhigh : sp ≤ sz) (hp : 0 < p.length) :
    (copyout d (Exec.below sp p.length) p).wp
      (fun r t => OnlyUser d s t ∧ (¬ r < 0 → sz - PGSIZE ≤ Exec.below sp p.length ∧
        Exec.below sp p.length + p.length ≤ sp ∧ sp < Exec.below sp p.length + p.length + 4 ∧
        Pushes d sz f (Exec.below sp p.length) p s.mem t.mem) ∧ (r < 0 → sp < sz - PGSIZE + p.length))
      (fun e t => OnlyUser d s t ∧ e = .nullPte ∧ sp < sz - PGSIZE + p.length) s := by
  have hva : Exec.below sp p.length < 2 ^ 32 := by
    unfold Exec.below
    omega
  have honly : OnlyUser d s (copyout d (Exec.below sp p.length) p s).2 :=
    copyoutPages_onlyUser _ _ hva
  have hrun : CopyoutRun d _ p s (copyout d (Exec.below sp p.length) p s) :=
    copyoutPages_run hva Nat.le.refl
  unfold wp
  generalize copyout d (Exec.below sp p.length) p s = x at honly hrun
  cases hrun with
  | done hall hfree hcopied =>
    obtain ⟨hin, hend, hgap⟩ := h.contained hlow hhigh hp hall
    exact ⟨honly, fun _ => ⟨hin, hend, hgap, h.pushes hin (by omega) hcopied⟩, fun hneg => by omega⟩
  | stopped i hfree hi hbefore hnone =>
    have hlong : sp < sz - PGSIZE + p.length := by
      by_contra hfit
      have hroom := h.room
      have hsmall := h.small
      have haligned := h.aligned
      have hin : sz - PGSIZE ≤ Exec.below sp p.length ∧ Exec.below sp p.length + p.length ≤ sp := by
        unfold Exec.below
        simp only [PGSIZE, KERNBASE] at *
        omega
      have hwrap : (Exec.below sp p.length + i) % 2 ^ 32 = Exec.below sp p.length + i :=
        Nat.mod_eq_of_lt (by simp only [KERNBASE] at hsmall; omega)
      rw [hwrap, h.page _ (by omega) (by omega)] at hnone
      cases hnone
    cases ht : d.hasTable ((Exec.below sp p.length + i) % 2 ^ 32) with
    | true =>
      rw [if_pos rfl]
      exact ⟨honly, fun hneg => absurd (by decide) hneg, fun _ => hlong⟩
    | false =>
      rw [if_neg (by simp)]
      exact ⟨honly, rfl, hlong⟩

end StackPage

/-- The bytes that the strings take with their ends and up to the next word. -/
def argBytes (args : List (List Byte)) : Nat := (args.map fun a => (a.length + 4) / 4 * 4).sum

theorem argBytes_append (args rest : List (List Byte)) (a : List Byte) :
    argBytes (args ++ a :: rest) = argBytes args + (a.length + 4) / 4 * 4 + argBytes rest := by
  simp [argBytes, Nat.add_assoc]

theorem argBytes_mod (args : List (List Byte)) : argBytes args % 4 = 0 := by
  induction args with
  | nil => rfl
  | cons a args ih =>
    unfold argBytes at *
    rw [List.map_cons, List.sum_cons]
    omega

/-- The strings have been pushed, each to the address that stands with it. -/
structure Pushed (d : PageDir) (m : Nat → Block PGSIZE) (sz : Nat) (placed : List (List Byte × Nat))
    (sp : Nat) :
    Prop where
  few : placed.length ≤ MAXARG
  size : sp + argBytes (placed.map Prod.fst) = sz
  low : sz - PGSIZE ≤ sp
  strings : ∀ x ∈ placed, sp ≤ x.2 ∧ x.2 + x.1.length + 1 ≤ sz ∧ x.2 % 4 = 0 ∧
    Holds d m x.2 (x.1 ++ [0])
  apart : placed.Pairwise fun x y => y.2 + y.1.length + 1 ≤ x.2

theorem Pushed.nil (h : StackPage d sz f) : Pushed d m sz [] sz := by
  have hroom := h.room
  exact ⟨Nat.zero_le _, rfl, by omega, fun x hx => absurd hx List.not_mem_nil, List.Pairwise.nil⟩

theorem Holds.congr {va : Nat} {p : List Byte} (h : Holds d m va p)
    (heq : ∀ j < p.length, d.userByte m' (va + j) = d.userByte m (va + j)) : Holds d m' va p := by
  intro j hj
  rw [heq j hj]
  exact h j hj

variable {placed : List (List Byte × Nat)}

theorem Pushed.kept (h : Pushed d m sz placed sp) {p : List Byte} (hp : va + p.length ≤ sp)
    (hpush : StackPage.Pushes d sz f va p m m') {x : List Byte × Nat} (hx : x ∈ placed) :
    Holds d m' x.2 (x.1 ++ [0]) := by
  obtain ⟨hlo, hhi, _, hheld⟩ := h.strings x hx
  have hlow := h.low
  refine hheld.congr fun j hj => hpush.kept _ ?_ (by omega) (.inr (by omega))
  rw [List.length_append, List.length_singleton] at hj
  omega

theorem Pushed.snoc (hst : StackPage d sz f) {a : List Byte} {q : Nat} (h : Pushed d m sz placed sp)
    (hfew : placed.length < MAXARG) (hq : sz - PGSIZE ≤ q) (hend : q + (a ++ [0]).length ≤ sp)
    (hgap : sp < q + (a ++ [0]).length + 4) (hmod : q % 4 = 0)
    (hpush : StackPage.Pushes d sz f q (a ++ [0]) m m') :
    Pushed d m' sz (placed ++ [(a, q)]) q := by
  have haligned := hst.aligned
  have hargs := argBytes_mod (placed.map Prod.fst)
  have hsize := h.size
  have hkept := fun {x} => h.kept (x := x) hend hpush
  simp only [PGSIZE] at haligned
  rw [List.length_append, List.length_singleton] at hend hgap
  refine ⟨?_, ?_, hq, ?_, ?_⟩
  · rw [List.length_append]
    exact hfew
  · have hnil : argBytes [] = 0 := rfl
    rw [List.map_append, List.map_singleton, argBytes_append, hnil]
    dsimp only
    omega
  · intro x hx
    rcases List.mem_append.mp hx with hold | hnew
    · obtain ⟨hlo, hhi, hal, _⟩ := h.strings x hold
      exact ⟨by omega, hhi, hal, hkept hold⟩
    · cases List.mem_singleton.mp hnew
      exact ⟨Nat.le_refl q, by dsimp only; omega, hmod, hpush.copied⟩
  · refine List.pairwise_append.mpr ⟨h.apart, List.pairwise_singleton _ _, fun x hx y hy => ?_⟩
    cases List.mem_singleton.mp hy
    have := (h.strings x hx).1
    dsimp only
    omega

/-- The strings and the array of pointers to them fit the stack page. -/
structure ArgsFit (argv : List (List Byte)) : Prop where
  few : argv.length ≤ MAXARG
  room : argBytes argv + 4 * (argv.length + 4) ≤ PGSIZE

theorem pushArgs_wp (hst : StackPage d sz f) (args : List (List Byte))
    (h : Pushed d s.mem sz placed sp) :
    (Exec.pushArgs d sp (placed.map Prod.snd) args).wp
      (fun o t => OnlyUser d s t ∧ (∀ sp' ptrs, o = some (sp', ptrs) → (∀ g ≠ f, t.mem g = s.mem g) ∧
        ∃ placed', ptrs = placed'.map Prod.snd ∧ placed'.map Prod.fst = placed.map Prod.fst ++ args ∧
          Pushed d t.mem sz placed' sp') ∧ (o = none → ¬ ArgsFit (placed.map Prod.fst ++ args)))
      (fun e t => OnlyUser d s t ∧ e = .nullPte ∧ ¬ ArgsFit (placed.map Prod.fst ++ args)) s := by
  induction args generalizing placed sp s with
  | nil =>
    refine ⟨.refl, fun sp' ptrs heq => ?_, fun hnone => by cases hnone⟩
    cases heq
    exact ⟨fun _ _ => rfl, placed, rfl, by rw [List.append_nil], h⟩
  | cons a args ih =>
    unfold Exec.pushArgs
    rw [List.length_map]
    refine wp_ite (fun hmany => ⟨.refl, (fun _ _ heq => by cases heq), fun _ hfit => ?_⟩)
      fun hfew => ?_
    · have := hfit.few
      rw [List.length_append, List.length_map, List.length_cons] at this
      omega
    have hlong : sp < sz - PGSIZE + (a.length + 1) →
        ¬ ArgsFit (placed.map Prod.fst ++ a :: args) := by
      intro hlt hfit
      have hpage := hst.room
      have hroom := hfit.room
      have hsize := h.size
      rw [argBytes_append] at hroom
      omega
    rw [wp_bind]
    have hcopy := hst.copyout_below (s := s) (p := a ++ [0]) h.low (by have := h.size; omega)
      (by simp)
    rw [List.length_append, List.length_singleton] at hcopy
    refine wp_mono hcopy (fun r t ⟨honly, hdone, hneg⟩ => ?_) fun e t ⟨honly, he, hlt⟩ =>
      ⟨honly, he, hlong hlt⟩
    refine wp_ite (fun hr => ⟨honly, (fun _ _ heq => by cases heq), fun _ => hlong (hneg hr)⟩)
      fun hpos => ?_
    obtain ⟨hin, hend, hgap, hpush⟩ := hdone hpos
    have hmod : Exec.below sp (a.length + 1) % 4 = 0 := by
      unfold Exec.below
      omega
    have hnext := h.snoc hst (by omega) hin (by simpa using hend) (by simpa using hgap) hmod hpush
    have hrec := ih (s := t) hnext
    rw [List.map_append, List.map_append, List.map_singleton, List.map_singleton, List.append_assoc,
      List.singleton_append] at hrec
    refine wp_mono hrec ?_ fun e u he => ⟨honly.trans he.1, he.2⟩
    intro o u ⟨honly', hall, hnone⟩
    refine ⟨honly.trans honly', fun sp' ptrs heq => ?_, hnone⟩
    obtain ⟨hothers, placed', hptrs, hargs, hpushed⟩ := hall sp' ptrs heq
    exact ⟨fun g hg => (hothers g hg).trans (hpush.others g hg), placed', hptrs, hargs, hpushed⟩

theorem Holds.left {p q : List Byte} (h : Holds d m va (p ++ q)) : Holds d m va p := by
  intro j hj
  have := h j (by rw [List.length_append]; omega)
  rwa [List.getElem_append_left hj] at this

theorem Holds.right {p q : List Byte} (h : Holds d m va (p ++ q)) :
    Holds d m (va + p.length) q := by
  intro j hj
  have := h (p.length + j) (by rw [List.length_append]; omega)
  rw [List.getElem_append_right (by omega)] at this
  simpa [Nat.add_assoc] using this

def HoldsWord (d : PageDir) (m : Nat → Block PGSIZE) (va w : Nat) : Prop :=
  Holds d m va (bytes32 (BitVec.ofNat 32 w))

theorem Holds.word {ws : List Nat} {i w : Nat} (h : Holds d m va (Exec.wordBytes ws))
    (hw : ws[i]? = some w) :
    HoldsWord d m (va + 4 * i) w := by
  induction ws generalizing va i with
  | nil => simp at hw
  | cons x ws ih =>
    have hsplit : Exec.wordBytes (x :: ws) = bytes32 (BitVec.ofNat 32 x) ++ Exec.wordBytes ws :=
      List.flatMap_cons
    rw [hsplit] at h
    cases i with
    | zero =>
      cases hw
      exact h.left
    | succ i =>
      have hrest := ih h.right hw
      rw [bytes32_length] at hrest
      rw [show va + 4 * (i + 1) = va + 4 + 4 * i by omega]
      exact hrest

theorem wordBytes_length (ws : List Nat) : (Exec.wordBytes ws).length = 4 * ws.length := by
  unfold Exec.wordBytes
  induction ws with
  | nil => rfl
  | cons w ws ih =>
    rw [List.flatMap_cons, List.length_append, ih, bytes32_length, List.length_cons]
    omega

/-- What a program finds from its first stack pointer esp on: a return address, argc, argv, the
array of pointers to the strings with a null pointer behind it, and the strings, each at the address
that stands with it in placed. -/
structure Delivered (d : PageDir) (m : Nat → Block PGSIZE) (sz esp : Nat) (argv : List (List Byte))
    (placed : List (List Byte × Nat)) : Prop where
  args : placed.map Prod.fst = argv
  argc : HoldsWord d m (esp + 4) argv.length
  vector : HoldsWord d m (esp + 8) (esp + 12)
  entries : ∀ i x, placed[(i : Nat)]? = some x → HoldsWord d m (esp + 12 + 4 * i) x.2
  null : HoldsWord d m (esp + 12 + 4 * argv.length) 0
  strings : ∀ x ∈ placed, Holds d m x.2 (x.1 ++ [0]) ∧ x.2 % 4 = 0 ∧
    esp + 4 * (argv.length + 4) ≤ x.2 ∧
    x.2 + x.1.length + 1 ≤ sz
  apart : placed.Pairwise fun x y => y.2 + y.1.length + 1 ≤ x.2
  inside : sz - PGSIZE ≤ esp
  aligned : esp % 4 = 0
  size : esp + 4 * (argv.length + 4) + argBytes argv = sz

theorem pushVector_wp (hst : StackPage d sz f) (h : Pushed d s.mem sz placed sp) :
    (Exec.pushVector d sp (placed.map Prod.snd)).wp
      (fun o t => OnlyUser d s t ∧ (∀ esp, o = some esp → (∀ g ≠ f, t.mem g = s.mem g) ∧
        Delivered d t.mem sz esp (placed.map Prod.fst) placed) ∧ (o = none → ¬ ArgsFit (placed.map Prod.fst)))
      (fun e t => OnlyUser d s t ∧ e = .nullPte ∧ ¬ ArgsFit (placed.map Prod.fst)) s := by
  have hfew := h.few
  have hsize := h.size
  have hargs := argBytes_mod (placed.map Prod.fst)
  have haligned := hst.aligned
  have hsmall := hst.small
  simp only [MAXARG, PGSIZE, KERNBASE] at hfew haligned hsmall
  have hlen : (Exec.wordBytes (Exec.ustack sp (placed.map Prod.snd))).length =
      4 * (placed.length + 4) := by
    rw [wordBytes_length]
    simp [Exec.ustack]
  have hbelow : (sp + 2 ^ 32 - (3 + placed.length + 1) * 4) % 2 ^ 32 =
      Exec.below sp (4 * (placed.length + 4)) := by
    unfold Exec.below
    omega
  have hcopy := hst.copyout_below (s := s)
    (p := Exec.wordBytes (Exec.ustack sp (placed.map Prod.snd))) h.low (by omega)
    (by omega)
  have hlong : sp < sz - PGSIZE + 4 * (placed.length + 4) → ¬ ArgsFit (placed.map Prod.fst) := by
    intro hlt hfit
    have hpage := hst.room
    have hroom := hfit.room
    rw [List.length_map] at hroom
    omega
  unfold Exec.pushVector
  rw [List.length_map]
  dsimp only
  rw [hbelow, wp_bind]
  rw [hlen] at hcopy
  refine wp_mono hcopy (fun r t ⟨honly, hdone, hneg⟩ => ?_) fun e t ⟨honly, he, hlt⟩ =>
    ⟨honly, he, hlong hlt⟩
  refine wp_ite (fun hr => ⟨honly, (fun _ heq => by cases heq), fun _ => hlong (hneg hr)⟩)
    fun hpos => ⟨honly, fun esp heq => ?_, fun hnone => by cases hnone⟩
  obtain ⟨hin, hend, hgap, hpush⟩ := hdone hpos
  cases heq
  have hesp : Exec.below sp (4 * (placed.length + 4)) + 4 * (placed.length + 4) = sp := by
    unfold Exec.below at *
    omega
  generalize Exec.below sp (4 * (placed.length + 4)) = esp at *
  have hword := fun {i w : Nat} => hpush.copied.word (i := i) (w := w)
  refine ⟨hpush.others, ⟨rfl, ?_, ?_, ?_, ?_, ?_, h.apart, hin, by omega, ?_⟩⟩
  · rw [List.length_map]
    exact hword (i := 1) (by simp [Exec.ustack])
  · refine hword (i := 2) ?_
    simp only [Exec.ustack, List.length_map, List.cons_append, List.getElem?_cons_succ,
      List.getElem?_cons_zero, Option.some.injEq]
    omega
  · intro i x hx
    have hi := (List.getElem?_eq_some_iff.mp hx).1
    rw [show esp + 12 + 4 * i = esp + 4 * (i + 3) by omega]
    refine hword ?_
    simp only [Exec.ustack, List.cons_append, List.nil_append, List.getElem?_cons_succ]
    rw [List.getElem?_append_left (by simpa using hi), List.getElem?_map, hx]
    rfl
  · rw [List.length_map, show esp + 12 + 4 * placed.length = esp + 4 * (placed.length + 3) by omega]
    refine hword ?_
    simp only [Exec.ustack, List.cons_append, List.nil_append, List.getElem?_cons_succ]
    rw [List.getElem?_append_right (by simp)]
    simp
  · intro x hx
    obtain ⟨hlo, hhi, hal, _⟩ := h.strings x hx
    refine ⟨h.kept (by omega) hpush hx, hal, ?_, hhi⟩
    rw [List.length_map]
    omega
  · rw [List.length_map]
    omega

theorem userPage_mapping (d : PageDir) (va : Nat) :
    d.userPage va = (d.mapping (va / PGSIZE)).bind fun e => if e.user then some e.addr
      else none := by
  obtain ⟨hd, ht⟩ := same_entry (a := va) (b := va / PGSIZE * PGSIZE) (by simp)
  unfold PageDir.userPage PageDir.mapping
  rw [hd, ht]
  dsimp only
  cases hp : (d.load (PDX (va / PGSIZE * PGSIZE), PTX (va / PGSIZE * PGSIZE))).present with
  | false => simp
  | true => simp

section

variable {s₀ : Kmem}

theorem NewDir.userPage_frame (h : NewDir s₀ d sz s) (hva : va < 2 ^ 32)
    (hf : d.userPage va = some f) :
    ∃ v < 2 ^ 19, ∃ e, d.mapping v = some e ∧ e.addr = f := by
  rw [userPage_mapping] at hf
  obtain ⟨e, he, huser⟩ := Option.bind_eq_some_iff.mp hf
  split at huser
  next hu =>
    refine ⟨va / PGSIZE, ?_, e, he, Option.some.inj huser⟩
    by_contra hge
    rw [h.kernel _ (by simp only [PGSIZE]; omega) (by omega) e he] at hu
    cases hu
  next => cases huser

theorem NewDir.userPage_mem (h : NewDir s₀ d sz s) (hva : va < 2 ^ 32)
    (hf : d.userPage va = some f) :
    f ∈ s₀.freelist := by
  obtain ⟨v, hv, e, he, rfl⟩ := h.userPage_frame hva hf
  exact h.frame_mem hv he

theorem OnlyUser.frames (ho : OnlyUser d s t) (h : NewDir s₀ d sz s) :
    ∀ f, (∀ v < 2 ^ 19, ∀ e, d.mapping v = some e → e.addr ≠ f) → t.mem f = s.mem f := by
  intro f hf
  refine ho.2 f fun va hva heq => ?_
  obtain ⟨v, hv, e, he, haddr⟩ := h.userPage_frame hva heq
  exact hf v hv e he haddr

theorem Building.onlyUser (h : Building s₀ d sz s) (hg : s₀.Good k) (ho : OnlyUser d s t) :
    Building s₀ d sz t := by
  have hmem := ho.frames h.toNewDir
  obtain ⟨free, m⟩ := t
  obtain rfl : free = s.freelist := ho.1
  exact h.write hg hmem

theorem NewDir.stackPage (h : NewDir s₀ d sz s) {v : Nat} {e e' : Pte} (hsz : sz = (v + 2) * PGSIZE)
    (hsmall : sz < KERNBASE) (hguard : d.mapping v = some e) (hclosed : e.user = false)
    (hpage : d.mapping (v + 1) = some e') (hopen : e'.user = true) : StackPage d sz e'.addr := by
  subst hsz
  have hin : ∀ {va w : Nat}, w * PGSIZE ≤ va → va < (w + 1) * PGSIZE → va / PGSIZE = w := by
    intro va w hlo hhi
    simp only [PGSIZE] at *
    omega
  refine ⟨?_, ?_, hsmall, ?_, ?_, ?_⟩
  · simp
  · simp only [PGSIZE]
    omega
  · intro va hva hlo
    rw [userPage_mapping, hin (w := v + 1) (by simp only [PGSIZE] at *; omega) hva, hpage,
      Option.bind_some, if_pos hopen]
  · intro va hva hlo
    rw [userPage_mapping, hin (w := v) (by simp only [PGSIZE] at *; omega)
      (by simp only [PGSIZE] at *; omega), hguard,
      Option.bind_some, hclosed, if_neg (by simp)]
  · intro va hva hlo
    rw [userPage_mapping]
    cases hm : d.mapping (va / PGSIZE) with
    | none => rfl
    | some x =>
      rw [Option.bind_some, h.kernel _ ?_ ?_ x hm, if_neg (by simp)]
      · simp only [PGSIZE]
        omega
      · simp only [PGSIZE, KERNBASE] at *
        omega

/-- The image of sz bytes in d and s has been given its stack. -/
structure Stacked (d : PageDir) (s : Kmem) (sz : Nat) (argv : List (List Byte)) (d' : PageDir)
    (t : Kmem) (sz' esp : Nat) : Prop where
  size : sz' = pages sz * PGSIZE + 2 * PGSIZE
  small : sz' < KERNBASE
  image : ∀ v < pages sz, SamePage d s d' t v
  guard : ∃ e, d'.mapping (pages sz) = some e ∧ e.user = false
  argv : ∃ placed, Delivered d' t.mem sz' esp argv placed

/-- The two pages above an image of n pages, once the lower one is closed to the user. -/
theorem stackPages (hg : s₀.Good k) {n : Nat} {d₁ : PageDir} (h : Building s₀ d₁ sz t)
    (hgrown : Grown d s (n * PGSIZE) d₁ t) (hsz : sz = (n + 2) * PGSIZE) (hsmall : sz < KERNBASE) :
    ∃ d₂ f, Returns (clearpteu d₁ (n * PGSIZE)) t d₂ t ∧ Building s₀ d₂ sz t ∧ StackPage d₂ sz f ∧
      (∃ e, d₂.mapping n = some e ∧ e.user = false) ∧
      ∀ v < n, ∀ u : Kmem, (∀ g ≠ f, u.mem g = t.mem g) → SamePage d s d₂ u v := by
  have hself : pages (n * PGSIZE) = n := by
    simp only [pages, PGSIZE]
    omega
  have hpages : pages sz = n + 2 := by
    rw [hsz]
    simp only [pages, PGSIZE]
    omega
  have hle := pages_le (Nat.le_of_lt hsmall)
  obtain ⟨e, he⟩ := Option.isSome_iff_exists.mp ((h.present n (by omega)).mpr (by omega))
  obtain ⟨e₁, he₁⟩ := Option.isSome_iff_exists.mp ((h.present (n + 1) (by omega)).mpr (by omega))
  obtain ⟨d₂, hclear, hnew, hother, e', he', hclosed⟩ := h.clearpteu (by omega) he
  have hopen : e₁.user = true := by
    have := (hgrown.fresh (n + 1) (by omega) (by rw [hself]; omega) e₁ he₁).1
    unfold Pte.user
    rw [this]
    decide
  have he₁' : d₂.mapping (n + 1) = some e₁ := (hother _ (by omega) (by omega)).trans he₁
  refine ⟨d₂, e₁.addr, hclear, hnew, hnew.stackPage hsz hsmall he' hclosed he₁' hopen,
    ⟨e', he', hclosed⟩, fun v hv u hu => ?_⟩
  obtain ⟨hmap, hmem⟩ := hgrown.old v (by rw [hself]; exact hv) (by omega)
  refine ⟨(hother v (by omega) (by omega)).trans hmap, fun x hx => ?_⟩
  rw [hu x.addr fun heq => ?_]
  · exact hmem x hx
  · have := h.separate hg (by omega) (by omega) (hmap.trans hx) he₁ heq
    omega

theorem stack_wp (hg : s₀.Good k) (h : Building s₀ d sz s) (hsz : sz < KERNBASE)
    (argv : List (List Byte)) :
    (Exec.stack k d sz argv).wp
      (fun x t => (∃ n, NewDir s₀ x.1 n t) ∧ (∀ sz' esp, x.2 = some (sz', esp) →
        Building s₀ x.1 sz' t ∧ Stacked d s sz argv x.1 t sz' esp) ∧
        (x.2 = none → s₀.Room (pages sz + 2) → ¬ ArgsFit argv))
      (fun e t => e = .nullPte ∧ (∀ f ∉ s₀.freelist, t.mem f = s₀.mem f) ∧ ¬ ArgsFit argv) s := by
  have hround := pgroundup_pages (Nat.le_of_lt hsz)
  have hpages := pages_le (Nat.le_of_lt hsz)
  have hself : pages (pages sz * PGSIZE) = pages sz := by
    simp only [pages, PGSIZE]
    omega
  have hwrap : (pages sz * PGSIZE + 2 * PGSIZE) % 2 ^ 32 = pages sz * PGSIZE + 2 * PGSIZE := by
    simp only [PGSIZE]
    omega
  have h' : Building s₀ d (pages sz * PGSIZE) s :=
    ⟨⟨by rw [hself]; exact h.present, h.kernel, h.account, h.mem⟩, h.clean,
      by rw [hself]; exact h.few⟩
  generalize hprog : Exec.stack k d sz argv = prog
  obtain ⟨d₁, r, t₁, hrun, hend⟩ := h'.allocuvm hg (pages sz * PGSIZE + 2 * PGSIZE)
  rcases hend with ⟨rfl, hnew, hfull⟩ | ⟨hr, hsmall, hnew, hgrown⟩
  · rw [← hprog]
    unfold Exec.stack
    dsimp only
    rw [hround, hwrap, wp_bind, wp_ok hrun]
    refine ⟨⟨_, hnew⟩, (fun _ _ heq => by cases heq), fun _ hroom => absurd hroom ?_⟩
    rwa [show pages (pages sz * PGSIZE + 2 * PGSIZE) =
      pages sz + 2 by simp only [pages, PGSIZE]; omega] at hfull
  have hr' : r = (pages sz + 2) * PGSIZE := by
    simp only [PGSIZE] at *
    omega
  have hr2 : r - 2 * PGSIZE = pages sz * PGSIZE := by
    simp only [PGSIZE] at *
    omega
  have hrk : r < KERNBASE := by
    simp only [PGSIZE] at *
    omega
  have hr0 : r ≠ 0 := by
    simp only [PGSIZE] at hr'
    omega
  obtain ⟨d₂, f, hclear, hnew₂, hst, hguard, himage⟩ := stackPages hg hnew hgrown hr' hrk
  rw [← hprog]
  unfold Exec.stack
  dsimp only
  rw [hround, hwrap, wp_bind, wp_ok hrun]
  dsimp only
  rw [if_neg hr0, hr2, wp_bind, wp_ok hclear, wp_bind]
  refine wp_mono (pushArgs_wp hst argv (.nil hst)) ?_ fun e u he =>
    ⟨he.2.1, (hnew₂.onlyUser hg he.1).mem, he.2.2⟩
  rintro (_ | ⟨sp, ptrs⟩) u ⟨honly, hpushed, hlong⟩
  · exact ⟨⟨r, (hnew₂.onlyUser hg honly).toNewDir⟩, (fun _ _ heq => by cases heq),
      fun _ _ => hlong rfl⟩
  · obtain ⟨hothers, placed, rfl, hargs, hall⟩ := hpushed sp ptrs rfl
    dsimp only
    rw [wp_bind]
    have hvector := pushVector_wp hst hall
    rw [hargs, List.map_nil, List.nil_append] at hvector
    refine wp_mono hvector ?_ fun e w he =>
      ⟨he.2.1, (hnew₂.onlyUser hg (honly.trans he.1)).mem, he.2.2⟩
    rintro (_ | esp) w ⟨honly', hdelivered, hlong⟩
    · exact ⟨⟨r, (hnew₂.onlyUser hg (honly.trans honly')).toNewDir⟩,
        (fun _ _ heq => by cases heq), fun _ _ => hlong rfl⟩
    · have hnew₃ := hnew₂.onlyUser hg (honly.trans honly')
      refine ⟨⟨r, hnew₃.toNewDir⟩, fun sz' esp' heq => ?_, fun hnone => by cases hnone⟩
      cases heq
      obtain ⟨hothers', hdel⟩ := hdelivered esp rfl
      refine ⟨hnew₃, by rw [hr']; simp only [PGSIZE]; omega, hrk, ?_, hguard, placed, hdel⟩
      exact fun v hv => himage v hv w fun g hne => (hothers' g hne).trans (hothers g hne)

end

end Xv6
