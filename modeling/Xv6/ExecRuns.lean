import Xv6.ExecLoad
import Xv6.FsRefs

namespace Xv6

open Bytes Prog

variable {k : KernelImage} {devsw : Devsw} {cwd ip : InodeSlot} {P P' : Fs → Prop}
  {c : Option (List Byte)}
  {d d' : PageDir} {s t : ExecState} {vars : Exec.Locals} {path : List Byte}
  {argv : List (List Byte)}
  {m m' : Nat → Block PGSIZE} {fine : Prop}

/-- The program headers of a file. -/
def phdrs (b : List Byte) : List Proghdr := phdrsAt b (Exec.phOffsets b)

/-- The free list is good, and no page of the process is on it. -/
structure ExecState.Good (k : KernelImage) (s : ExecState) : Prop where
  free : s.mem.Good k
  used : ∀ f, s.proc.pgdir.Has f → k.Valid f ∧ f ∉ s.mem.freelist

/-- exec has given up: the process is as it was, and so is all memory that was in use. -/
structure ExecFailed (s : ExecState) (t : ExecState) : Prop where
  proc : t.proc = s.proc
  mem : ∀ f ∉ s.mem.freelist, t.mem.mem f = s.mem.mem f

/-- The new image of the process, made of pages that were free; isz is the size without the stack.
-/
structure NewImage (s : ExecState) (c : Option (List Byte)) (path : List Byte)
    (argv : List (List Byte)) (t : ExecState) : Prop where
  name : t.proc.name = Exec.progName path
  fresh : ∀ f, t.proc.pgdir.Has f → f ∈ s.mem.freelist
  present : ∀ v < 2 ^ 19, (t.proc.pgdir.mapping v).isSome ↔ v < pages t.proc.sz
  small : t.proc.sz < KERNBASE
  size : ∃ isz, t.proc.sz = pages isz * PGSIZE + 2 * PGSIZE ∧
    (∃ e, t.proc.pgdir.mapping (pages isz) = some e ∧ e.user = false) ∧
    ∀ b, c = some b → word32 b 0 = ELF_MAGIC ∧ t.proc.eip = word32 b 24 ∧ isz = imageEnd (phdrs b) ∧
      ∀ va < pages isz * PGSIZE, t.proc.pgdir.byteAt t.mem.mem va = some (imageByte b (phdrs b) va)
  argv : ∃ placed, Delivered t.proc.pgdir t.mem.mem t.proc.sz t.proc.esp argv placed
  mem : ∀ f, ¬ t.proc.pgdir.Has f → ¬ s.proc.pgdir.Has f → t.mem.mem f = s.mem.mem f

/-- The file b can be started with the arguments: it can be loaded, and the memory is enough. -/
structure Startable (s : Kmem) (b : List Byte) (argv : List (List Byte)) : Prop where
  header : 52 ≤ b.length
  magic : word32 b 0 = ELF_MAGIC
  load : Loadable s b (Exec.phOffsets b)
  args : ArgsFit argv
  room : s.Room (pages (imageEnd (phdrs b)) + 2)

/-- How exec returns. -/
structure Ends (fine : Prop) (s : ExecState) (P' : Fs → Prop) (c : Option (List Byte))
    (path : List Byte) (argv : List (List Byte)) (r : Int) (t : ExecState) : Prop where
  file : P' t.fs
  ops : t.begun = s.begun ∧ t.ended = s.ended + 1
  result : r = -1 ∧ ExecFailed s t ∨ r = 0 ∧ NewImage s c path argv t
  bad : r = -1 → ¬ fine

theorem Delivered.congr {sz esp : Nat} {placed : List (List Byte × Nat)}
    (h : Delivered d m sz esp argv placed)
    (heq : ∀ va, d.userByte m' va = d.userByte m va) : Delivered d m' sz esp argv placed := by
  have hholds : ∀ {va p}, Holds d m va p → Holds d m' va p := fun hp => hp.congr fun j _ => heq _
  refine ⟨h.args, hholds h.argc, hholds h.vector, fun i x hx => hholds (h.entries i x hx),
    hholds h.null, ?_, h.apart, h.inside, h.aligned, h.size⟩
  intro x hx
  obtain ⟨hstr, hrest⟩ := h.strings x hx
  exact ⟨hholds hstr, hrest⟩

theorem word16_append {a b : List Byte} {off : Nat} (h : off + 2 ≤ a.length) :
    word16 (a ++ b) off = word16 a off := by
  unfold word16 Bytes.word16
  rw [List.getD_append _ _ _ _ (by omega), List.getD_append _ _ _ _ (by omega)]

/-- The header is the start of the file. -/
structure HeaderOf (header b : List Byte) : Prop where
  magic : word32 b 0 = ELF_MAGIC
  entry : word32 header 24 = word32 b 24
  phs : Exec.phOffsets header = Exec.phOffsets b

theorem header_read (b elf : List Byte) {data : List Byte} (hlen : 52 ≤ b.length)
    (hdata : data = b.take 52) :
    (∀ off, off + 4 ≤ 52 → word32 (overwrite elf data) off = word32 b off) ∧
      word16 (overwrite elf data) 44 = word16 b 44 := by
  have hdlen : (b.take 52).length = 52 := by
    rw [List.length_take]
    omega
  have hsplit : b = b.take 52 ++ b.drop 52 := (List.take_append_drop 52 b).symm
  constructor
  · intro off hoff
    rw [hsplit, overwrite, hdata, word32_append (by omega), word32_append (by omega)]
  · rw [hsplit, overwrite, hdata, word16_append (by omega), word16_append (by omega)]

theorem header_wp (hserve : Serves devsw ip P P' c fine) {f : Fs} (hP : P f) (elf : List Byte)
    (hfine : fine → ∃ b, c = some b ∧ 52 ≤ b.length ∧ word32 b 0 = ELF_MAGIC) :
    (execHeader devsw ip elf).wp
      (fun o f' => P f' ∧ (∀ header, o = some header → ∀ b, c = some b → HeaderOf header b) ∧
        (o = none → ¬ fine))
      (fun _ _ => ¬ fine) f := by
  unfold execHeader
  rw [wp_bind]
  refine wp_imp (hserve.read f 0 52 hP) fun r f' ⟨hPf, hc⟩ => ?_
  refine wp_ite (fun hshort => ⟨hPf, (fun _ heq => by cases heq), fun _ hall => ?_⟩) fun hshort =>
    wp_ite (fun hwrong => ⟨hPf, (fun _ heq => by cases heq), fun _ hall => ?_⟩) fun hmagic =>
      ⟨hPf, fun header heq b hb => ?_, fun hnone => by cases hnone⟩
  · obtain ⟨b, hb, hlen, _⟩ := hfine hall
    have hret := (hc b hb).2.2 (by omega)
    rw [hret] at hshort
    omega
  · obtain ⟨b, hb, hlen, hmagic⟩ := hfine hall
    have hdata := ((hc b hb).1 ((hc b hb).2.2 (by omega))).2
    exact hwrong (((header_read b elf hlen hdata).1 0 (by omega)).trans hmagic)
  · cases heq
    obtain ⟨hall, hpos, _⟩ := hc b hb
    have hret : r.ret = (52 : Nat) :=
      (r.not_short (by decide) hshort).resolve_left (by have := hpos rfl; omega)
    obtain ⟨hlen, hdata⟩ := hall hret
    obtain ⟨hword, hhalf⟩ := header_read b elf (by omega) hdata
    refine ⟨?_, hword 24 (by omega), ?_⟩
    · rw [← hword 0 (by omega)]
      exact not_not.mp hmagic
    · unfold Exec.phOffsets
      rw [hhalf, hword 28 (by omega)]

theorem freeNew_wp {s₀ : Kmem} (hg : s₀.Good k) {o : Option PageDir}
    (ho : ∀ d, o = some d → ∃ n, NewDir s₀ d n t.mem)
    (hmem : ∀ f ∉ s₀.freelist, t.mem.mem f = s₀.mem f) :
    (Exec.freeNew k o).wp (fun _ u =>
      ∃ m, u = { t with mem := m } ∧ ∀ f ∉ s₀.freelist, m.mem f = s₀.mem f)
      (fun _ _ => False) t := by
  cases o with
  | none => exact ⟨t.mem, rfl, hmem⟩
  | some d =>
    obtain ⟨n, hnew⟩ := ho d rfl
    obtain ⟨m, hrun, _, hm⟩ := hnew.freevm hg
    unfold Exec.freeNew
    rw [Exec.wp_onVm, wp_ok hrun]
    exact ⟨m, rfl, hm⟩

theorem bad_locked_wp (hserve : Serves devsw ip P P' c fine) (hg : s.mem.Good k) {f : Fs} {m : Kmem} (hP : P f)
    (hmem : ∀ f ∉ s.mem.freelist, m.mem f = s.mem.mem f) {o : Option PageDir}
    (ho : ∀ d, o = some d → ∃ n, NewDir s.mem d n m) (hbad : ¬ fine) :
    (Exec.bad k o (some ip)).wp (Ends fine s P' c path argv) (Halts fine s.mem) { s with fs := f, mem := m } := by
  unfold Exec.bad
  rw [wp_bind]
  refine wp_mono (freeNew_wp (t := { s with fs := f, mem := m }) hg ho hmem) ?_ fun _ _ hfalse =>
    hfalse.elim
  rintro _ _ ⟨m', rfl, hm'⟩
  unfold Exec.release
  rw [wp_bind, wp_bind, Exec.wp_onFs]
  refine wp_mono (hserve.unlock f hP) ?_ fun e f _ => ⟨⟨.inr ⟨e, rfl⟩, hm'⟩, hbad⟩
  intro _ f' hf'
  exact ⟨hf', ⟨rfl, rfl⟩, .inl ⟨rfl, rfl, hm'⟩, fun _ => hbad⟩

theorem bad_unlocked_wp (hg : s.mem.Good k) {f : Fs} {m : Kmem} {n : Nat} (hf : P' f)
    (h : NewDir s.mem d n m)
    (hbad : ¬ fine) : (Exec.bad k (some d) none).wp (Ends fine s P' c path argv) (Halts fine s.mem)
      { s with fs := f, mem := m, ended := s.ended + 1 } := by
  unfold Exec.bad
  rw [wp_bind]
  refine wp_mono (freeNew_wp (t := { s with fs := f, mem := m, ended := s.ended + 1 }) hg
    (fun d' hd => by cases hd; exact ⟨n, h⟩) h.mem) ?_ fun _ _ hfalse => hfalse.elim
  rintro _ _ ⟨m', rfl, hm'⟩
  exact ⟨hf, ⟨rfl, rfl⟩, .inl ⟨rfl, rfl, hm'⟩, fun _ => hbad⟩

theorem NewDir.same_image {s₀ : Kmem} {m : Kmem} {n : Nat} (h : NewDir s₀ d n m)
    (hm : ∀ f ∈ s₀.freelist, m' f = m.mem f) :
    (∀ va < 2 ^ 31, d.byteAt m' va = d.byteAt m.mem va) ∧
      ∀ va, d.userByte m' va = d.userByte m.mem va := by
  constructor
  · intro va hva
    unfold PageDir.byteAt
    cases he : d.mapping (va / PGSIZE) with
    | none => rfl
    | some e =>
      rw [Option.map_some, Option.map_some, hm _ (h.frame_mem (by simp only [PGSIZE]; omega) he)]
  · intro va
    unfold PageDir.userByte PageDir.place
    cases hu : d.userPage (va % 2 ^ 32) with
    | none => rfl
    | some f => simp only [Option.map_some, hm f (h.userPage_mem (Nat.mod_lt _ (by decide)) hu)]

theorem commit_wp {f : Fs} {m₁ : Kmem} {m : Kmem} {isz sz esp entry : Nat}
    (hold : ∀ f, s.proc.pgdir.Has f → k.Valid f ∧ f ∉ s.mem.freelist) (hf : P' f)
    (hnew : Building s.mem d' sz m) (hst : Stacked d m₁ isz argv d' m sz esp)
    (hisz : isz < KERNBASE)
    (himage : ∀ b, c = some b →
      word32 b 0 = ELF_MAGIC ∧ entry = word32 b 24 ∧ isz = imageEnd (phdrs b) ∧
      ∀ va < pages isz * PGSIZE, d.byteAt m₁.mem va = some (imageByte b (phdrs b) va)) :
    (Exec.commit k path d' sz entry esp).wp (Ends fine s P' c path argv) (Halts fine s.mem)
      { s with fs := f, mem := m, ended := s.ended + 1 } := by
  have hpages := pages_le (Nat.le_of_lt hisz)
  obtain ⟨m', hrun, _, hm'⟩ :=
    freevm_run (k := k) (d := s.proc.pgdir) (s := m) (hold _ (.inl rfl)).1
    (fun f hf => (hold f (.inr (.inl hf))).1)
    (fun f hf => by
      obtain ⟨u, e, _, hu, he, haddr⟩ := PageDir.mem_frames.mp hf
      exact (hold f (.inr (.inr ⟨u, hu, e, he, haddr⟩))).1)
  have hother : ∀ f, ¬ s.proc.pgdir.Has f → m'.mem f = m.mem f := by
    intro f hnot
    refine hm' f (fun h => hnot (.inl h)) (fun h => hnot (.inr (.inl h))) fun h => ?_
    obtain ⟨u, e, _, hu, he, haddr⟩ := PageDir.mem_frames.mp h
    exact hnot (.inr (.inr ⟨u, hu, e, he, haddr⟩))
  have hfree : ∀ f ∈ s.mem.freelist, m'.mem f = m.mem f :=
    fun f hin => hother f fun hhas => (hold f hhas).2 hin
  obtain ⟨hbytes, huser⟩ := hnew.toNewDir.same_image hfree
  obtain ⟨placed, hdel⟩ := hst.argv
  unfold Exec.commit
  rw [wp_bind, wp_get, wp_bind, wp_set, wp_bind, Exec.wp_onVm, wp_ok hrun]
  refine ⟨hf, ⟨rfl, rfl⟩, .inr ⟨rfl, rfl, fun f => hnew.has_mem, hnew.present, hst.small,
    ⟨isz, hst.size, hst.guard, ?_⟩, ⟨placed, hdel.congr huser⟩, ?_⟩, fun hneg => by cases hneg⟩
  · intro b hb
    obtain ⟨hmagic, hentry, hend, hall⟩ := himage b hb
    refine ⟨hmagic, hentry, hend, fun va hva => ?_⟩
    have hsame := hst.image (va / PGSIZE) ((Nat.div_lt_iff_lt_mul (by decide)).mpr hva)
    rw [← hall va hva, ← hsame.byteAt]
    refine hbytes va ?_
    simp only [PGSIZE] at hva
    omega
  · intro f hout hnot
    refine (hother f hnot).trans ?_
    by_cases hfree : f ∈ s.mem.freelist
    · exact hnew.clean f (hnew.free_of_not_has hfree hout)
    · exact hnew.mem f hfree

theorem setupkvm_wp (k : KernelImage) (s₀ : Kmem) :
    (setupkvm k).wp (fun o m => m.mem = s₀.mem ∧ (o = none → s₀.freelist.length < 65) ∧
      ∀ d, o = some d → Building s₀ d 0 m) (fun _ _ => False) s₀ := by
  generalize hprog : setupkvm k = prog
  obtain ⟨o, m, hrun, hend⟩ := setupkvm_building k s₀
  rw [hprog] at hrun
  rw [wp_ok hrun]
  exact hend

theorem locked_wp {f : Fs} (hserve : Serves devsw ip P P' c fine) (h : s.Good k) (hP : P f)
    (hfine : fine → ∃ b, c = some b ∧ Startable s.mem b argv) :
    (Exec.locked k devsw vars path argv ip).wp (Ends fine s P' c path argv) (Halts fine s.mem)
      { s with fs := f } := by
  have hg := h.free
  unfold Exec.locked
  rw [wp_bind, Exec.wp_onFs]
  refine wp_mono (header_wp hserve hP vars.elf fun hall => ?_) ?_ fun e f hbad =>
    ⟨⟨.inr ⟨e, rfl⟩, fun _ _ => rfl⟩, hbad⟩
  · obtain ⟨b, hb, hstart⟩ := hfine hall
    exact ⟨b, hb, hstart.header, hstart.magic⟩
  rintro (_ | header) f ⟨hPf, hheader, hnone⟩
  · exact bad_locked_wp (m := s.mem) hserve hg hPf (fun _ _ => rfl) (fun _ heq => by cases heq) (hnone rfl)
  dsimp only
  rw [wp_bind, Exec.wp_onVm]
  refine wp_mono (setupkvm_wp k s.mem) ?_ fun _ _ hfalse => hfalse.elim
  rintro (_ | d) m ⟨hm, hfew, hnew⟩
  · refine bad_locked_wp (m := m) hserve hg hPf (fun g _ => congrFun hm g) (fun _ heq => by cases heq) fun hall => ?_
    obtain ⟨b, _, hstart⟩ := hfine hall
    have henough := hstart.room.enough
    have := hfew rfl
    omega
  dsimp only
  rw [wp_bind]
  have hload : fine → ∃ b, c = some b ∧ Loadable s.mem b (Exec.phOffsets header) := by
    intro hall
    obtain ⟨b, hb, hstart⟩ := hfine hall
    exact ⟨b, hb, (hheader header rfl b hb).phs ▸ hstart.load⟩
  refine wp_imp (segments_wp (s := { s with fs := f, mem := m }) hserve hg (hnew d rfl) (by decide) hPf vars.ph
    (Exec.phOffsets header) (fun b _ => Loaded.nil) hload) ?_
  rintro ⟨d₁, o⟩ t ⟨⟨f₁, m₁, rfl⟩, hPf₁, ⟨n, hdir⟩, himage, hbad⟩
  cases o with
  | none =>
    exact bad_locked_wp (m := m₁) hserve hg hPf₁ hdir.mem (fun d' heq => by cases heq; exact ⟨n, hdir⟩) (hbad rfl)
  | some isz =>
    have hisz := (himage isz rfl).1
    have hnew₁ : Building s.mem d₁ isz m₁ := (himage isz rfl).2.1
    have hloaded := (himage isz rfl).2.2
    dsimp only
    rw [wp_bind, Exec.wp_onFs]
    have himage : ∀ b, c = some b → word32 b 0 = ELF_MAGIC ∧ word32 header 24 = word32 b 24 ∧
        isz = imageEnd (phdrs b) ∧ ∀ va < pages isz * PGSIZE, d₁.byteAt m₁.mem va = some (imageByte b (phdrs b) va) := by
      intro b hb
      have hhead := hheader header rfl b hb
      have hl := hloaded b hb
      rw [List.nil_append, hhead.phs] at hl
      exact ⟨hhead.magic, hhead.entry, hl.size, hl.bytes⟩
    have hfits : fine → s.mem.Room (pages isz + 2) ∧ ArgsFit argv := by
      intro hall
      obtain ⟨b, hb, hstart⟩ := hfine hall
      rw [(himage b hb).2.2.1]
      exact ⟨hstart.room, hstart.args⟩
    refine wp_mono (hserve.unlock f₁ hPf₁) ?_ fun e f hbad => ⟨⟨.inr ⟨e, rfl⟩, hnew₁.mem⟩, hbad⟩
    intro _ f₂ hf₂
    unfold Exec.end_op
    rw [wp_bind, wp_modify, wp_bind, Exec.wp_onVm]
    refine wp_mono (stack_wp hg hnew₁ hisz argv) ?_ fun e m he =>
      ⟨⟨.inl (by rw [he.1]), he.2.1⟩, fun hall => he.2.2 (hfits hall).2⟩
    rintro ⟨d₂, _ | ⟨sz, esp⟩⟩ m₂ ⟨⟨n', hdir'⟩, hst, hnone⟩
    · exact bad_unlocked_wp hg hf₂ hdir' fun hall => hnone rfl (hfits hall).1 (hfits hall).2
    · exact commit_wp h.used hf₂ (hst sz esp rfl).1 (hst sz esp rfl).2 hisz himage

/-- How exec ends, if the file that it opens, if any, is served. -/
theorem exec_wp (h : s.Good k) (hfine : fine → ∃ b, c = some b ∧ Startable s.mem b argv)
    (hopen : (namei cwd path).wp (fun o f => (o = none → P' f ∧ ¬ fine) ∧ ∀ ip, o = some ip →
      (ilock ip).wp (fun _ f' => ∃ P, P f' ∧ Serves devsw ip P P' c fine) (fun _ _ => ¬ fine) f)
      (fun _ _ => ¬ fine) s.fs) :
    (exec k devsw vars cwd path argv).wp (Ends fine { s with begun := s.begun + 1 } P' c path argv)
      (Halts fine s.mem) s := by
  unfold exec Exec.begin_op
  rw [wp_bind, wp_modify, wp_bind, Exec.wp_onFs]
  refine wp_mono hopen ?_ fun e f hbad => ⟨⟨.inr ⟨e, rfl⟩, fun _ _ => rfl⟩, hbad⟩
  rintro (_ | ip) f ⟨hnone, hsome⟩
  · exact ⟨(hnone rfl).1, ⟨rfl, rfl⟩, .inl ⟨rfl, rfl, fun _ _ => rfl⟩, fun _ => (hnone rfl).2⟩
  · dsimp only
    rw [wp_bind, Exec.wp_onFs]
    refine wp_mono (hsome ip rfl) ?_ fun e f hbad => ⟨⟨.inr ⟨e, rfl⟩, fun _ _ => rfl⟩, hbad⟩
    rintro _ f' ⟨P, hP, hserve⟩
    exact locked_wp (s := { s with begun := s.begun + 1 }) hserve ⟨h.free, h.used⟩ hP hfine

theorem wp_halting {α : Type} (x : FsM α) (f : Fs) :
    x.wp (fun _ _ => True) (fun _ _ => ¬ False) f :=
  wp_mono (wp_true f) (fun _ _ h => h) fun _ _ _ h => h

theorem serves_any : Serves devsw ip (fun _ => True) (fun _ => True) none False where
  read f off n _ := wp_imp (wp_halting _ f) fun _ _ _ => ⟨trivial, fun _ heq => by cases heq⟩
  unlock f _ := wp_halting _ f
  small b heq := by cases heq

theorem exec_any (h : s.Good k) : (exec k devsw vars cwd path argv).wp
    (Ends False { s with begun := s.begun + 1 } (fun _ => True) none path argv)
      (Halts False s.mem) s :=
  exec_wp h False.elim (wp_imp (wp_halting _ s.fs) fun _ f _ => ⟨fun _ => ⟨trivial, id⟩, fun _ _ =>
    wp_imp (wp_halting _ f) fun _ _ _ => ⟨_, trivial, serves_any⟩⟩)

/-- A process of one page beside 80 free ones. -/
def onePageState (f : Fs) : ExecState :=
  ⟨f, ⟨List.range' 0x2000 80, fun _ => zero⟩, ⟨onePage, 4096, 0, 0, []⟩, 0, 0⟩

theorem onePageState_good (f : Fs) : (onePageState f).Good smallKernel := by
  refine ⟨⟨List.nodup_range', fun g hg => ?_⟩, fun g hg => ?_⟩
  · unfold onePageState at hg
    rw [List.mem_range'_1] at hg
    exact smallKernel_valid (by omega) (by omega)
  · have hlow := onePage_has hg
    refine ⟨smallKernel_valid hlow.1 (by omega), fun hin => ?_⟩
    unfold onePageState at hin
    rw [List.mem_range'_1] at hin
    omega

section

variable {R : InodeSlot → Nat} {K : InodeSlot → Bool}

theorem keeps_readInto (ip : InodeSlot) (off n : Nat) :
    KeepsRefs (readInto kernelDevsw ip off n) := by
  refine keeps_get.bind fun f => .ite ?_ ((keeps_readi ip off n).bind fun o => ?_)
  · unfold kernelDevsw
    by_cases hmajor : (f.inode ip).din.major = consoleMajor
    · rw [if_pos hmajor]
      exact (keeps_consoleread ip n).bind fun _ => keeps_pure _
    · rw [if_neg hmajor]
      exact keeps_pure _
  · cases o with
    | none => exact keeps_pure _
    | some b => exact keeps_pure _

theorem serves_refs (hk : K ip = false) :
    Serves kernelDevsw ip (fun f => f.Refs (plus R ip) (lockAt K ip)) (fun f => f.Refs R K) none
      False where
  read f off n h := wp_mono (keeps_readInto ip off n f _ _ h)
    (fun _ _ h' => ⟨h', fun _ heq => by cases heq⟩)
    fun _ _ _ => id
  unlock f h := wp_mono (iunlockput_refs h hk) (fun _ _ h' => h') fun _ _ _ => id
  small b heq := by cases heq

/-- A call that returns -1 has changed nothing of the process: it has its directory with the memory,
its size, trap frame and name, and exec holds no inode and no transaction any more. -/
theorem exec_fails_cleanly (h : s.Good k) (hrefs : s.fs.Refs R K) (hcwd : 0 < R cwd)
    (hret : Returns (exec k kernelDevsw vars cwd path argv) s (-1) t) :
    t.proc = s.proc ∧ (∀ f, s.proc.pgdir.Has f → t.mem.mem f = s.mem.mem f) ∧ t.fs.Refs R K ∧
      t.begun = s.begun + 1 ∧ t.ended = s.ended + 1 := by
  have hwp : (exec k kernelDevsw vars cwd path argv).wp
      (Ends False { s with begun := s.begun + 1 } (fun f => f.Refs R K) none path argv)
        (Halts False s.mem) s := by
    refine exec_wp h False.elim (wp_mono (namei_refs hrefs hcwd)
      (fun o f hf => ⟨fun hnone => ⟨?_, id⟩, fun ip hsome => ?_⟩) fun _ _ _ => id)
    · subst hnone
      exact hf
    · subst hsome
      exact wp_mono (ilock_refs hf) (fun _ f' hlock => ⟨_, hlock.2.2, serves_refs hlock.1⟩) fun _ _ _ => id
  rw [wp_ok hret] at hwp
  rcases hwp.result with ⟨_, hfail⟩ | ⟨hzero, _⟩
  · exact ⟨hfail.proc, fun f hf => hfail.mem f (h.used f hf).2, hwp.file, hwp.ops⟩
  · cases hzero

theorem exec_fails_cleanly_device :
    ∃ t, Returns (exec smallKernel kernelDevsw ⟨[], []⟩ 0 [100] []) (onePageState deviceFs) (-1) t ∧
      t.proc = (onePageState deviceFs).proc ∧ (∀ f, onePage.Has f → t.mem.mem f = zero) ∧
      t.fs.Refs (fun ip => (deviceFs.inode ip).ref) (fun _ => false) ∧ t.begun = 1 ∧ t.ended = 1 := by
  have hret : (exec smallKernel kernelDevsw ⟨[], []⟩ 0 [100] [] (onePageState deviceFs)).1 =
      .ok (-1) := by
    decide +kernel
  have hrefs : deviceFs.Refs (fun ip => (deviceFs.inode ip).ref) (fun _ => false) :=
    ⟨fun _ => rfl, by decide +kernel, by decide +kernel⟩
  exact ⟨_, Prod.ext hret rfl,
    exec_fails_cleanly (onePageState_good deviceFs) hrefs (by decide) (Prod.ext hret rfl)⟩

end

end Xv6
