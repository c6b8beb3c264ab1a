import Mathlib.Data.List.GetD
import Xv6.Exec
import Xv6.Growproc

namespace Xv6

open Bytes Prog

variable {k : KernelImage} {devsw : Devsw} {vars : Exec.Locals} {cwd ip : InodeSlot}
  {path elf : List Byte}
  {argv : List (List Byte)} {f : Fs} {s : ExecState}

/-- The path names ip, and ilock ends with f'. -/
def Fs.Opens (f : Fs) (cwd : InodeSlot) (path : List Byte) (ip : InodeSlot) (f' : Fs) : Prop :=
  ∃ f₁, Returns (namei cwd path) f (some ip) f₁ ∧ Returns (ilock ip) f₁ () f'

/-- All bytes of the header that is used have been delivered, and they start with ELF_MAGIC. -/
def Delivers (devsw : Devsw) (ip : InodeSlot) (f : Fs) (header : List Byte) (f' : Fs) : Prop :=
  ∃ r, Returns (readInto devsw ip 0 52) f r f' ∧ r.ret = 52 ∧ r.data = header.take 52 ∧
    word32 r.data 0 = ELF_MAGIC

/-- exec goes on after the check of the header, and returns 0, only if the header has been
delivered. -/
structure RequiresHeader (k : KernelImage) (devsw : Devsw) (vars : Exec.Locals) (cwd : InodeSlot)
    (path : List Byte) (argv : List (List Byte)) (s : ExecState) : Prop where
  beyond : ∀ ip f, s.fs.Opens cwd path ip f →
    ∀ header f', Returns (execHeader devsw ip vars.elf) f (some header) f' →
    Delivers devsw ip f header f'
  zero : ∀ t, Returns (exec k devsw vars cwd path argv) s 0 t →
    ∃ ip f header f', s.fs.Opens cwd path ip f ∧ Delivers devsw ip f header f'

/-- A result that is not below the size as an unsigned number is the size or negative. -/
theorem ReadResult.not_short {n : Nat} (r : ReadResult n) (hn : n < 2 ^ 31)
    (h : ¬ (r.ret % 2 ^ 32).toNat < n) :
    r.ret < 0 ∨ r.ret = n := by
  by_cases hneg : r.ret < 0
  · exact .inl hneg
  · have hlen := r.honest (by omega)
    have hfits := r.fits
    omega

theorem ReadResult.negative_not_short {n : Nat} (r : ReadResult n) (hn : n < 2 ^ 31)
    (h : r.ret < 0) :
    ¬ (r.ret % 2 ^ 32).toNat < n := by
  have hrange := r.range
  omega

theorem word32_append {a b : List Byte} {off : Nat} (h : off + 4 ≤ a.length) :
    word32 (a ++ b) off = word32 a off := by
  unfold word32 Bytes.word32
  rw [List.getD_append _ _ _ _ (by omega), List.getD_append _ _ _ _ (by omega),
    List.getD_append _ _ _ _ (by omega), List.getD_append _ _ _ _ (by omega)]

theorem execHeader_run {r : ReadResult 52} {f' : Fs} (h : Returns (readInto devsw ip 0 52) f r f') :
    Returns (execHeader devsw ip elf) f
      (if (r.ret % 2 ^ 32).toNat < 52 ∨ word32 (overwrite elf r.data) 0 ≠ ELF_MAGIC then none
        else some (overwrite elf r.data)) f' := by
  refine h.bind ?_
  by_cases hshort : (r.ret % 2 ^ 32).toNat < 52
  · rw [if_pos hshort, if_pos (.inl hshort)]
    exact returns_pure
  · rw [if_neg hshort]
    by_cases hmagic : word32 (overwrite elf r.data) 0 ≠ ELF_MAGIC
    · rw [if_pos hmagic, if_pos (.inr hmagic)]
      exact returns_pure
    · rw [if_neg hmagic, if_neg (by simp only [hshort, hmagic, or_self, not_false_iff])]
      exact returns_pure

theorem bad_ret {pgdir : Option PageDir} {o : Option InodeSlot} {r : Int} {t : ExecState}
    (h : Returns (Exec.bad k pgdir o) s r t) : r = -1 := by
  obtain ⟨_, _, _, h⟩ := h.of_bind
  obtain ⟨_, _, _, h⟩ := h.of_bind
  exact (returns_pure.unique h).1.symm

theorem exec_zero {t : ExecState} (h : Returns (exec k devsw vars cwd path argv) s 0 t) :
    ∃ ip f header f', s.fs.Opens cwd path ip f ∧
      Returns (execHeader devsw ip vars.elf) f (some header) f' := by
  obtain ⟨_, _, hbegin, h⟩ := h.of_bind
  obtain ⟨_, rfl⟩ := returns_modify.unique hbegin
  obtain ⟨o, _, hfs, h⟩ := h.of_bind
  obtain ⟨f₁, hname, rfl⟩ := Exec.returns_onFs hfs
  cases o with
  | none =>
    obtain ⟨_, _, _, h⟩ := h.of_bind
    cases (returns_pure.unique h).1
  | some ip =>
    obtain ⟨_, _, hfs, h⟩ := h.of_bind
    obtain ⟨f, hlock, rfl⟩ := Exec.returns_onFs hfs
    obtain ⟨o, _, hfs, h⟩ := h.of_bind
    obtain ⟨f', hheader, rfl⟩ := Exec.returns_onFs hfs
    cases o with
    | none => cases bad_ret h
    | some header => exact ⟨ip, f, header, f', ⟨f₁, hname, hlock⟩, hheader⟩

/-- Just when a read of the header that fails leaves no ELF_MAGIC in the variable, as of an earlier
call. -/
theorem exec_requires_header_iff :
    RequiresHeader k devsw vars cwd path argv s ↔
      ∀ ip f, s.fs.Opens cwd path ip f → ∀ r f', Returns (readInto devsw ip 0 52) f r f' → r.ret < 0 →
        word32 (overwrite vars.elf r.data) 0 ≠ ELF_MAGIC := by
  constructor
  · intro h ip f hopen r f' hread hneg hmagic
    have hgood : ¬ ((r.ret % 2 ^ 32).toNat < 52 ∨
        word32 (overwrite vars.elf r.data) 0 ≠ ELF_MAGIC) := by
      simp only [r.negative_not_short (by decide) hneg, hmagic, ne_eq, not_true, or_self, not_false_iff]
    have hrun : Returns (execHeader devsw ip vars.elf) f _ f' := execHeader_run hread
    rw [if_neg hgood] at hrun
    obtain ⟨r', hread', hret, _⟩ := h.beyond ip f hopen _ _ hrun
    obtain ⟨rfl, _⟩ := hread.unique hread'
    omega
  · intro h
    have hbeyond : ∀ ip f, s.fs.Opens cwd path ip f → ∀ header f',
        Returns (execHeader devsw ip vars.elf) f (some header) f' → Delivers devsw ip f header f' := by
      intro ip f hopen header f' hheader
      obtain ⟨r, _, hread, _⟩ := hheader.of_bind
      obtain ⟨heq, rfl⟩ := (execHeader_run hread).unique hheader
      split at heq
      next => cases heq
      next hgood =>
        cases heq
        rw [not_or, not_not] at hgood
        obtain ⟨hshort, hmagic⟩ := hgood
        rcases r.not_short (by decide) hshort with hneg | hall
        · exact absurd hmagic (h ip f hopen r _ hread hneg)
        · have hlen := r.honest (by omega)
          have hdata : r.data.length = 52 := by omega
          have htake : (overwrite vars.elf r.data).take 52 = r.data := List.take_left' hdata
          refine ⟨r, hread, hall, htake.symm, ?_⟩
          rw [← hmagic, overwrite, word32_append (by omega)]
    refine ⟨hbeyond, fun t hzero => ?_⟩
    obtain ⟨ip, f, header, f', hopen, hheader⟩ := exec_zero hzero
    exact ⟨ip, f, header, f', hopen, hbeyond ip f hopen header f' hheader⟩

/-- The current directory has the entry d, which is a device node with major number 5. -/
def deviceFs : Fs where
  disk b := if b = 50 then put zero 0 (encodeDirent 2 [100]) else zero
  sb := ⟨1000, 941, 200, 30, 2, 32, 58⟩
  inode ip :=
    if ip = 0 then ⟨1, 1, false, true,
      { Dinode.zero with type := tDir, nlink := 1, size := 16, addrs := fun _ => 50 }⟩
    else if ip = 1 then ⟨2, 1, false, true,
      { Dinode.zero with type := tDev, major := 5, nlink := 1 }⟩
    else ⟨0, 0, false, false, Dinode.zero⟩
  input := []

/-- What an earlier call of exec may have left: a header without program headers. -/
def staleHeader : List Byte := [0x7F, 0x45, 0x4C, 0x46] ++ List.replicate 48 0

theorem exec_device_stale_header :
    ¬ RequiresHeader smallKernel kernelDevsw ⟨staleHeader, []⟩ 0 [100] []
      ⟨deviceFs, ⟨[], fun _ => zero⟩, ⟨onePage, 4096, 0, 0, []⟩, 0, 0⟩ := by
  have hname : (namei 0 [100] deviceFs).1 = .ok (some 1) := by decide +kernel
  have hlock : (ilock 1 (namei 0 [100] deviceFs).2).1 = .ok () := by decide +kernel
  have hheader : (execHeader kernelDevsw 1 staleHeader (ilock 1 (namei 0 [100] deviceFs).2).2).1 =
      .ok (some staleHeader) := by decide +kernel
  have hread : (readInto kernelDevsw 1 0 52 (ilock 1 (namei 0 [100] deviceFs).2).2).1.map
    ReadResult.ret =
      .ok (-1) := by decide +kernel
  have hopen : deviceFs.Opens 0 [100] 1 (ilock 1 (namei 0 [100] deviceFs).2).2 :=
    ⟨(namei 0 [100] deviceFs).2, Prod.ext hname rfl, Prod.ext hlock rfl⟩
  generalize (ilock 1 (namei 0 [100] deviceFs).2).2 = f at hopen hheader hread
  intro h
  obtain ⟨r, hrun, hret, _⟩ :=
    h.beyond 1 f hopen staleHeader (execHeader kernelDevsw 1 staleHeader f).2
    (Prod.ext hheader rfl)
  rw [hrun] at hread
  have hneg : r.ret = -1 := Except.ok.inj hread
  omega

end Xv6
