import Xv6.ExecRuns
import Xv6.FileRead

namespace Xv6

open Bytes Prog

variable {k : KernelImage} {devsw : Devsw} {cwd ip : InodeSlot} {s : ExecState} {f : Fs}
  {vars : Exec.Locals}
  {path : List Byte} {argv : List (List Byte)}

/-- A file or directory with all its blocks. -/
def Fs.IsFile (f : Fs) (ip : InodeSlot) : Prop :=
  (f.inode ip).din.type ≠ tDev ∧ FileOk f.disk (fun _ => (f.inode ip).din) 0

def Fs.content (f : Fs) (ip : InodeSlot) : List Byte :=
  fileBytes f.disk (fun _ => (f.inode ip).din) 0

theorem Fs.content_length (f : Fs) (ip : InodeSlot) :
    (f.content ip).length = (f.inode ip).din.size.toNat :=
  fileBytes_length ..

theorem Fs.IsFile.readInto (h : f.IsFile ip) (off n : Nat) :
    Returns (readInto devsw ip off n) f
      (if (f.content ip).length < off ∨ (off + n) % 2 ^ 32 < off then .failed
        else .done (((f.content ip).drop off).take n)) f := by
  have hread := readi_file h.2 rfl h.1 off n
  refine returns_get.bind ?_
  rw [if_neg h.1]
  refine hread.bind ?_
  rw [f.content_length ip]
  by_cases hbad : (f.inode ip).din.size.toNat < off ∨ (off + n) % 2 ^ 32 < off
  · rw [if_pos hbad, if_pos hbad]
    exact returns_pure
  · rw [if_neg hbad, if_neg hbad]
    exact returns_pure

theorem serves_file {fine : Prop} (h : f.IsFile ip)
    (hput : (iunlockput ip).wp (fun _ _ => True) (fun _ _ => ¬ fine) f) :
    Serves devsw ip (· = f) (fun _ => True) (some (f.content ip)) fine where
  read := by
    intro f' off n hf
    rw [hf, wp_ok (h.readInto off n)]
    refine ⟨rfl, fun b hb => ?_⟩
    cases hb
    by_cases hbad : (f.content ip).length < off ∨ (off + n) % 2 ^ 32 < off
    · rw [if_pos hbad]
      refine ⟨fun hret => ?_, fun hzero => by omega, fun hin => ?_⟩
      · have hneg : (-1 : Int) = n := hret
        omega
      · have hsmall := BitVec.isLt (f.inode ip).din.size
        rw [← f.content_length ip] at hsmall
        omega
    · rw [if_neg hbad]
      refine ⟨fun hret => ?_, fun _ => Int.natCast_nonneg _, fun hin => ?_⟩
      case refine_2 =>
        show (((((f.content ip).drop off).take n).take n).length : Int) = n
        rw [List.take_take, Nat.min_self, List.length_take, List.length_drop]
        omega
      have hlen : ((((f.content ip).drop off).take n).take n).length = n := Int.ofNat_inj.mp hret
      rw [List.take_take, Nat.min_self, List.length_take, List.length_drop] at hlen
      refine ⟨by omega, ?_⟩
      show (((f.content ip).drop off).take n).take n = ((f.content ip).drop off).take n
      rw [List.take_take, Nat.min_self]
  unlock f' hf := hf ▸ hput
  small b hb := by
    cases hb
    rw [f.content_length ip]
    exact BitVec.isLt _

theorem exec_file_wp (devsw : Devsw) (vars : Exec.Locals) {fine : Prop} (h : s.Good k)
    (hopen : s.fs.Opens cwd path ip f) (hfile : f.IsFile ip)
    (hfine : fine → Startable s.mem (f.content ip) argv)
    (hput : (iunlockput ip).wp (fun _ _ => True) (fun _ _ => ¬ fine) f) :
    (exec k devsw vars cwd path argv).wp
      (Ends fine { s with begun := s.begun + 1 } (fun _ => True) (some (f.content ip)) path argv)
      (Halts fine s.mem) s := by
  obtain ⟨f₁, hname, hlock⟩ := hopen
  refine exec_wp h (fun hall => ⟨_, rfl, hfine hall⟩) ?_
  rw [wp_ok hname]
  refine ⟨fun hnone => absurd hnone (Option.some_ne_none ip), fun ip' hsome => ?_⟩
  cases hsome
  rw [wp_ok hlock]
  exact ⟨(· = f), rfl, serves_file hfile hput⟩

theorem exec_enough (devsw : Devsw) (vars : Exec.Locals) {f' : Fs} (h : s.Good k)
    (hopen : s.fs.Opens cwd path ip f) (hfile : f.IsFile ip)
    (hstart : Startable s.mem (f.content ip) argv) (hput : Returns (iunlockput ip) f () f') :
    ∃ t, Returns (exec k devsw vars cwd path argv) s 0 t := by
  have hwp := exec_file_wp devsw vars h hopen hfile (fun _ : True => hstart)
    (by rw [wp_ok hput]; trivial)
  obtain ⟨r, t, hrun, hend⟩ :=
    Returns.of_wp (wp_mono hwp (fun _ _ hend => hend) fun _ _ hhalt => hhalt.2 trivial)
  rcases hend.result with ⟨hr, _⟩ | ⟨rfl, _⟩
  · exact absurd trivial (hend.bad hr)
  · exact ⟨t, hrun⟩

/-- The process has the image of a file: the segments from 0 on, and above them a page closed to the
user and the stack. -/
structure ImageOf (b : List Byte) (t : ExecState) : Prop where
  size : t.proc.sz = pages (imageEnd (phdrs b)) * PGSIZE + 2 * PGSIZE
  bytes : ∀ va < pages (imageEnd (phdrs b)) * PGSIZE,
    t.proc.pgdir.byteAt t.mem.mem va = some (imageByte b (phdrs b) va)
  guard : ∃ e, t.proc.pgdir.mapping (pages (imageEnd (phdrs b))) = some e ∧ e.user = false

/-- Whatever the file holds: exec stops only in the file system or in copyout, and writes only pages
that it has got from the free list; if it succeeds, these are the pages of the new image, and those
of the old one are given back. The new image is that of the file. -/
theorem exec_loads_image (h : s.Good k) :
    (exec k devsw vars cwd path argv).wp
      (fun r t => (r = -1 ∧ ∀ g ∉ s.mem.freelist, t.mem.mem g = s.mem.mem g) ∨
        (r = 0 ∧ (∀ g, t.proc.pgdir.Has g → g ∈ s.mem.freelist) ∧
          ∀ g, ¬ t.proc.pgdir.Has g → ¬ s.proc.pgdir.Has g → t.mem.mem g = s.mem.mem g))
      (fun e t => (e = .vm .nullPte ∨ ∃ x, e = .fs x) ∧ ∀ g ∉ s.mem.freelist, t.mem.mem g = s.mem.mem g) s ∧
    ∀ ip f, s.fs.Opens cwd path ip f → f.IsFile ip →
      ∀ t, Returns (exec k devsw vars cwd path argv) s 0 t →
      ImageOf (f.content ip) t := by
  constructor
  · refine wp_mono (exec_any h) (fun r t hend => ?_) fun e t hend => hend.1
    rcases hend.result with ⟨hr, hfail⟩ | ⟨hr, hnew⟩
    · exact .inl ⟨hr, hfail.mem⟩
    · exact .inr ⟨hr, hnew.fresh, hnew.mem⟩
  · intro ip f hopen hfile t hret
    have hstart : False → Startable s.mem (f.content ip) argv := False.elim
    have hwp := exec_file_wp devsw vars h hopen hfile hstart (wp_halting _ f)
    rw [wp_ok hret] at hwp
    rcases hwp.result with ⟨hneg, _⟩ | ⟨_, hnew⟩
    · cases hneg
    · obtain ⟨isz, hsz, hguard, himage⟩ := hnew.size
      obtain ⟨_, _, rfl, hbytes⟩ := himage _ rfl
      exact ⟨hsz, hbytes, hguard⟩

/-- An executable with one segment of four bytes, which takes eight bytes of memory from 0 on. -/
def smallElf : List Byte :=
  [0x7F, 0x45, 0x4C, 0x46] ++ List.replicate 24 0 ++ [52, 0, 0, 0] ++ List.replicate 12 0 ++ [1] ++
    List.replicate 7 0 ++
    ([1, 0, 0, 0, 84, 0, 0, 0] ++ List.replicate 8 0 ++ [4, 0, 0, 0, 8, 0, 0,
      0] ++ List.replicate 8 0) ++
    [0xB8, 1, 0xCD, 64]

/-- The current directory has the entry e, which is this executable. -/
def elfFs : Fs where
  disk b := if b = 50 then put zero 0 (encodeDirent 2 [101]) else if b = 51 then put zero 0 smallElf
    else zero
  sb := ⟨1000, 941, 200, 30, 2, 32, 58⟩
  inode ip :=
    if ip = 0 then ⟨1, 1, false, true,
      { Dinode.zero with type := tDir, nlink := 1, size := 16, addrs := fun _ => 50 }⟩
    else if ip = 1 then
      ⟨2, 1, false, true, { Dinode.zero with type := tFile, nlink := 1, size := 88, addrs := fun _ => 51 }⟩
    else ⟨0, 0, false, false, Dinode.zero⟩
  input := []

theorem elfFs_opens : ∃ f f', elfFs.Opens 0 [101] 1 f ∧ f.IsFile 1 ∧ f.content 1 = smallElf ∧
    Returns (iunlockput 1) f () f' := by
  have hname : (namei 0 [101] elfFs).1 = .ok (some 1) := by decide +kernel
  have hlock : (ilock 1 (namei 0 [101] elfFs).2).1 = .ok () := by decide +kernel
  have hput : (iunlockput 1 (ilock 1 (namei 0 [101] elfFs).2).2).1 = .ok () := by decide +kernel
  have hsize : ((ilock 1 (namei 0 [101] elfFs).2).2.inode 1).din.size.toNat = 88 := by
    decide +kernel
  refine ⟨(ilock 1 (namei 0 [101] elfFs).2).2, _,
    ⟨(namei 0 [101] elfFs).2, Prod.ext hname rfl, Prod.ext hlock rfl⟩, ?_,
    by decide +kernel, Prod.ext hput rfl⟩
  refine ⟨by decide +kernel, by decide +kernel, by decide +kernel, fun bn hbn => ?_⟩
  rw [hsize] at hbn
  obtain rfl : bn = 0 := by
    simp only [BSIZE] at hbn
    omega
  decide +kernel

theorem smallElf_startable (argv : List (List Byte)) (h : ArgsFit argv) :
    Startable (onePageState elfFs).mem smallElf argv := by
  refine ⟨by decide, by decide, ?_, h, by decide, by decide⟩
  intro off hoff
  have hoffs : Exec.phOffsets smallElf = [52] := by decide
  rw [hoffs, List.mem_singleton] at hoff
  subst hoff
  exact ⟨by decide, fun _ => ⟨by decide, by decide, by decide, by decide, by decide, by decide⟩⟩

theorem exec_loads_image_elf :
    ∃ t, Returns (exec smallKernel kernelDevsw ⟨[], []⟩ 0 [101] []) (onePageState elfFs) 0 t ∧
      ImageOf smallElf t := by
  obtain ⟨f, f', hopen, hfile, hcontent, hput⟩ := elfFs_opens
  have hgood := onePageState_good elfFs
  obtain ⟨t, hrun⟩ := exec_enough kernelDevsw ⟨[], []⟩ hgood hopen hfile
    (hcontent ▸ smallElf_startable [] ⟨by decide, by decide⟩) hput
  exact ⟨t, hrun, hcontent ▸ (exec_loads_image hgood).2 1 f hopen hfile t hrun⟩

/-- The arguments that a program started with 0 finds in its stack page, which they have to fit
into. -/
theorem exec_delivers_argv (h : s.Good k) :
    (exec k devsw vars cwd path argv).wp
      (fun r t => (r = 0 → t.proc.sz % PGSIZE = 0 ∧
          ∃ placed, Delivered t.proc.pgdir t.mem.mem t.proc.sz t.proc.esp argv placed) ∧
        (PGSIZE < argBytes argv + 4 * (argv.length + 4) → r = -1))
      (fun e _ => e = .vm .nullPte ∨ ∃ x, e = .fs x) s := by
  refine wp_mono (exec_any h) (fun r t hend => ?_) fun e t hend => hend.1.1
  rcases hend.result with ⟨rfl, _⟩ | ⟨rfl, himage⟩
  · exact ⟨fun hzero => absurd hzero (by decide), fun _ => rfl⟩
  · obtain ⟨isz, hsz, _⟩ := himage.size
    obtain ⟨placed, hdel⟩ := himage.argv
    refine ⟨fun _ => ⟨?_, placed, hdel⟩, fun hbig => ?_⟩
    · rw [hsz]
      simp only [PGSIZE]
      omega
    · have hin := hdel.inside
      have hsize := hdel.size
      omega

/-- Two arguments that fit, and one that is too long. -/
theorem exec_delivers_argv_two :
    (∃ t placed, Returns (exec smallKernel kernelDevsw ⟨[], []⟩ 0 [101] [[108, 115], [47]])
      (onePageState elfFs) 0 t ∧
      Delivered t.proc.pgdir t.mem.mem t.proc.sz t.proc.esp [[108, 115], [47]] placed) ∧
    (exec smallKernel kernelDevsw ⟨[], []⟩ 0 [101] [List.replicate 4096 97]).wp (fun r _ => r = -1)
      (fun e _ => e = .vm .nullPte ∨ ∃ x, e = .fs x) (onePageState elfFs) := by
  have hgood := onePageState_good elfFs
  have hzero : ∃ t,
      Returns (exec smallKernel kernelDevsw ⟨[], []⟩ 0 [101] [[108, 115], [47]])
        (onePageState elfFs) 0 t := by
    obtain ⟨f, f', hopen, hfile, hcontent, hput⟩ := elfFs_opens
    exact exec_enough _ _ hgood hopen hfile
      (hcontent ▸ smallElf_startable _ ⟨by decide, by decide⟩) hput
  generalize onePageState elfFs = s at hgood hzero ⊢
  generalize hlen : List.replicate 4096 (97 : Byte) = a
  constructor
  · obtain ⟨t, hrun⟩ := hzero
    have hdel := @exec_delivers_argv smallKernel kernelDevsw 0 s ⟨[], []⟩ [101] [[108, 115],
      [47]] hgood
    rw [wp_ok hrun] at hdel
    obtain ⟨_, placed, hplaced⟩ := hdel.1 rfl
    exact ⟨t, placed, hrun, hplaced⟩
  · refine wp_imp (exec_delivers_argv hgood) fun r t h => h.2 ?_
    have ha : a.length = 4096 := by rw [← hlen, List.length_replicate]
    simp [argBytes, ha, PGSIZE]

end Xv6
