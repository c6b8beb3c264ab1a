import Xv6.Copy
import Xv6.Memory

namespace Xv6

/-- The loop of a copy with rising addresses: *d++ = *s++. -/
def copyUp (mem : Memory) (d s : Addr) : Nat → Memory
  | 0 => mem
  | n + 1 => copyUp (Function.update mem d (mem s)) (d + 1) (s + 1) n

/-- The loop of a copy with falling addresses: *--d = *--s. -/
def copyDown (mem : Memory) (d s : Addr) : Nat → Memory
  | 0 => mem
  | n + 1 => copyDown (Function.update mem (d - 1) (mem (s - 1))) (d - 1) (s - 1) n

/-- The memmove of string.c: the memory afterwards, and the result. -/
def Kernel.memmove (mem : Memory) (dst src n : BitVec 32) : Memory × Addr :=
  if src < dst ∧ src + n > dst then (copyDown mem (dst + n) (src + n) n.toNat, dst)
  else (copyUp mem dst src n.toNat, dst)

/-- The memmove of ulib.c; its n is an int. -/
def User.memmove (mem : Memory) (vdst vsrc n : BitVec 32) : Memory × Addr :=
  (copyUp mem vdst vsrc n.toInt.toNat, vdst)

/-- What was at src is now at dst, and the rest of memory is as it was. -/
structure Moved (mem : Memory) (dst src : Addr) (n : Nat) (mem' : Memory) : Prop where
  bytes : ∀ i < n, mem' (dst + BitVec.ofNat 32 i) = mem (src + BitVec.ofNat 32 i)
  rest : ∀ a, (∀ i < n, a ≠ dst + BitVec.ofNat 32 i) → mem' a = mem a

/-- If dst lies in the range from src on, what is before dst comes again and again up to the end of
that range. -/
def Repeats (mem : Memory) (dst src : Addr) (n : Nat) : Prop :=
  src < dst → dst.toNat < src.toNat + n →
    ∀ i < n, mem (src + BitVec.ofNat 32 i) =
      mem (src + BitVec.ofNat 32 (i % (dst.toNat - src.toNat)))

variable {mem mem' mem'' : Memory} {dst src p : Addr} {n i : Nat}

theorem Moved.unique (h : Moved mem dst src n mem') (h' : Moved mem dst src n mem'') :
    mem' = mem'' := by
  funext a
  by_cases ha : ∀ i < n, a ≠ dst + BitVec.ofNat 32 i
  · rw [h.rest a ha, h'.rest a ha]
  · push Not at ha
    obtain ⟨i, hi, rfl⟩ := ha
    rw [h.bytes i hi, h'.bytes i hi]

theorem iterate_up : (fun a : Addr => a + 1)^[i] p = p + BitVec.ofNat 32 i := by
  induction i with
  | zero => simp
  | succ i ih =>
    rw [Function.iterate_succ_apply', ih]
    bv_omega

theorem iterate_down : (fun a : Addr => a - 1)^[i] p = p - BitVec.ofNat 32 i := by
  induction i with
  | zero => simp
  | succ i ih =>
    rw [Function.iterate_succ_apply', ih]
    bv_omega

theorem copyUp_eq : copyUp mem dst src n = Copy.run (fun a => a + 1) n mem dst src := by
  induction n generalizing mem dst src with
  | zero => rfl
  | succ n ih => exact ih

theorem copyDown_eq : copyDown mem dst src n =
    Copy.run (fun a => a - 1) n mem (dst - 1) (src - 1) := by
  induction n generalizing mem dst src with
  | zero => rfl
  | succ n ih => exact ih

theorem apart_up (h : p.toNat + n ≤ 2 ^ 32) : Copy.Apart (fun a : Addr => a + 1) n p := by
  intro i j hij hj
  rw [iterate_up, iterate_up]
  exact addr_ne (by omega) (by omega) (by omega)

theorem copyUp_rest {a : Addr} (ha : ∀ i < n, a ≠ dst + BitVec.ofNat 32 i) :
    copyUp mem dst src n a = mem a := by
  rw [copyUp_eq]
  refine Copy.run_of_ne fun i hi => ?_
  rw [iterate_up]
  exact ha i hi

theorem copyUp_moved (hdst : dst.toNat + n ≤ 2 ^ 32) (hsrc : src.toNat + n ≤ 2 ^ 32)
    (h : dst.toNat ≤ src.toNat ∨ src.toNat + n ≤ dst.toNat) :
    Moved mem dst src n (copyUp mem dst src n) := by
  refine ⟨fun i hi => ?_, fun a => copyUp_rest⟩
  rw [copyUp_eq, ← iterate_up, ← iterate_up]
  refine Copy.run_moves (apart_up hdst) (fun i j hji hin => ?_) hi
  rw [iterate_up, iterate_up]
  exact addr_ne (by omega) (by omega) (by omega)

/-- With dst in the range from src on, the bytes before dst are all that is ever read. -/
theorem copyUp_repeats (hdst : dst.toNat + n ≤ 2 ^ 32) (h : src.toNat < dst.toNat) (hi : i < n) :
    copyUp mem dst src n (dst + BitVec.ofNat 32 i) =
      mem (src + BitVec.ofNat 32 (i % (dst.toNat - src.toNat))) := by
  have hend : (fun a : Addr => a + 1)^[dst.toNat - src.toNat] src = dst := by
    rw [iterate_up]
    exact (addr_of_le (by omega)).symm
  have hapart : Copy.Apart (fun a : Addr => a + 1) (dst.toNat - src.toNat + n) src :=
    apart_up (by omega)
  have hrun : Copy.run (fun a => a + 1) n mem _ src _ = _ := Copy.run_repeats (by omega) hapart hi
  rw [hend] at hrun
  rw [copyUp_eq, ← iterate_up, ← iterate_up]
  exact hrun

theorem iterate_down_end (hi : i < n) :
    (fun a : Addr => a - 1)^[i] (p + BitVec.ofNat 32 n - 1) = p + BitVec.ofNat 32 (n - 1 - i) := by
  rw [iterate_down]
  obtain ⟨m, rfl⟩ : ∃ m, n = m + 1 + i := ⟨n - 1 - i, by omega⟩
  rw [show m + 1 + i - 1 - i = m by omega]
  bv_omega

theorem copyDown_moved (hdst : dst.toNat + n ≤ 2 ^ 32) (h : src.toNat < dst.toNat) :
    Moved mem dst src n (copyDown mem (dst + BitVec.ofNat 32 n) (src + BitVec.ofNat 32 n) n) := by
  rw [copyDown_eq]
  have hapart : Copy.Apart (fun a : Addr => a - 1) n (dst + BitVec.ofNat 32 n - 1) := by
    intro i j hij hj
    rw [iterate_down_end (by omega), iterate_down_end hj]
    exact addr_ne (by omega) (by omega) (by omega)
  constructor
  · intro i hi
    have hlast : ∀ q : Addr,
        (fun a : Addr => a - 1)^[n - 1 - i] (q + BitVec.ofNat 32 n - 1) = q + BitVec.ofNat 32 i := by
      intro q
      rw [iterate_down_end (by omega), show n - 1 - (n - 1 - i) = i by omega]
    rw [← hlast dst, ← hlast src]
    refine Copy.run_moves hapart (fun i j hji hin => ?_) (by omega)
    rw [iterate_down_end hin, iterate_down_end (by omega)]
    exact addr_ne (by omega) (by omega) (by omega)
  · intro a ha
    refine Copy.run_of_ne fun i hi => ?_
    rw [iterate_down_end hi]
    exact ha _ (by omega)

theorem kernel_memmove_moved {n : BitVec 32} (hdst : dst.toNat + n.toNat ≤ 2 ^ 32)
    (hsrc : src.toNat + n.toNat ≤ 2 ^ 32) :
    Moved mem dst src n.toNat (Kernel.memmove mem dst src n).1 := by
  unfold Kernel.memmove
  split
  next h =>
    have hn : BitVec.ofNat 32 n.toNat = n := by simp
    have hmoved : Moved mem dst src n.toNat (copyDown mem _ _ n.toNat) := copyDown_moved hdst h.1
    rwa [hn] at hmoved
  next h =>
    refine copyUp_moved hdst hsrc ?_
    by_contra hover
    exact h (by bv_omega)

theorem user_memmove_moved_iff {n : BitVec 32} (hdst : dst.toNat + n.toNat ≤ 2 ^ 32)
    (hsrc : src.toNat + n.toNat ≤ 2 ^ 32) (hn : 0 ≤ n.toInt) :
    Moved mem dst src n.toNat (User.memmove mem dst src n).1 ↔ Repeats mem dst src n.toNat := by
  have hcount : n.toInt.toNat = n.toNat := by
    rw [BitVec.toInt_eq_toNat_cond] at hn ⊢
    have := n.isLt
    split <;> omega
  unfold User.memmove
  rw [hcount]
  by_cases hover : src.toNat < dst.toNat ∧ dst.toNat < src.toNat + n.toNat
  · constructor
    · intro h _ _ i hi
      rw [← h.bytes i hi]
      exact copyUp_repeats hdst hover.1 hi
    · intro h
      refine ⟨fun i hi => ?_, fun a => copyUp_rest⟩
      rw [h hover.1 hover.2 i hi]
      exact copyUp_repeats hdst hover.1 hi
  · constructor
    · intro _ hlt hend
      exact absurd ⟨hlt, hend⟩ hover
    · intro _
      exact copyUp_moved hdst hsrc (by omega)

/-- The memmove of the kernel moves whatever ranges it is given; that of the user library does, and
does the same, just when the bytes that it overwrites before they are read would not have changed.
-/
theorem memmoves_move_iff (mem : Memory) (dst src n : BitVec 32)
    (hdst : dst.toNat + n.toNat ≤ 2 ^ 32) (hsrc : src.toNat + n.toNat ≤ 2 ^ 32) :
    Moved mem dst src n.toNat (Kernel.memmove mem dst src n).1 ∧
      (0 ≤ n.toInt →
        (Moved mem dst src n.toNat (User.memmove mem dst src n).1 ↔ Repeats mem dst src n.toNat) ∧
        (Kernel.memmove mem dst src n = User.memmove mem dst src n ↔ Repeats mem dst src n.toNat)) := by
  have hkernel : Moved mem dst src n.toNat (Kernel.memmove mem dst src n).1 :=
    kernel_memmove_moved hdst hsrc
  refine ⟨hkernel, fun hn => ⟨user_memmove_moved_iff hdst hsrc hn, ?_⟩⟩
  rw [← user_memmove_moved_iff hdst hsrc hn]
  constructor
  · intro heq
    rwa [← heq]
  · intro huser
    have hdst : (Kernel.memmove mem dst src n).2 = dst := by
      unfold Kernel.memmove
      split <;> rfl
    exact Prod.ext (hkernel.unique huser) hdst

/-- The bytes of memory hold their addresses. -/
def numbered : Memory := fun a => a.setWidth 8

theorem memmoves_move_iff_two : Moved numbered 0 1 2 (User.memmove numbered 0 1 2).1 ∧
    Kernel.memmove numbered 0 1 2 = User.memmove numbered 0 1 2 := by
  have hrepeats : Repeats numbered 0 1 2 := fun h => absurd h (by decide)
  obtain ⟨hmoved, hsame⟩ := (memmoves_move_iff numbered 0 1 2 (by decide) (by decide)).2 (by decide)
  exact ⟨hmoved.mpr hrepeats, hsame.mpr hrepeats⟩

theorem user_memmove_overwrites : ¬ Moved numbered 1 0 2 (User.memmove numbered 1 0 2).1 ∧
    Kernel.memmove numbered 1 0 2 ≠ User.memmove numbered 1 0 2 := by
  constructor
  · intro h
    exact absurd (h.bytes 1 (by omega)) (by decide)
  · intro h
    exact absurd (congrFun (congrArg Prod.fst h) 2) (by decide)

end Xv6
