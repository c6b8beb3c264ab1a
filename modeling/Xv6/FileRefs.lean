import Mathlib.Data.Fintype.Prod
import Xv6.Counts
import Xv6.FileTable
import Xv6.FsRefs

namespace Xv6

open Bytes

/-- How many descriptors of the table point to the file. -/
def fdCount (T : Slot → Task) (f : FileSlot) : Nat :=
  Counts.count (fun q : Slot × Fd => (T q.1).ofile q.2) (· = some f)

def cwdCount (T : Slot → Task) (ip : InodeSlot) : Nat := Counts.count T fun t => t.cwd = some ip

def fileCount (file : FileSlot → File) (ip : InodeSlot) : Nat :=
  Counts.count file fun v => v.type = .inode ip

/-- Whether the write end or the read end of the pipe is open. -/
def Pipe.isOpen (v : Pipe) (writable : Bool) : Bool := if writable then v.writeopen else v.readopen

/-- The two ends of a pipe are open as the files say, and a page is free or a pipe. -/
structure Kernel.Pipes (k : Kernel) (pages : List Page) : Prop where
  file : ∀ f page, (k.file f).type = .pipe page →
    ∃ v, k.pipe page = some v ∧ v.isOpen (k.file f).writable = true
  unique : ∀ f g page, (k.file f).type = .pipe page → (k.file g).type = .pipe page →
    (k.file f).writable = (k.file g).writable → f = g
  holder : ∀ page v w, k.pipe page = some v → v.isOpen w = true →
    ∃ f, (k.file f).type = .pipe page ∧ (k.file f).writable = w
  used : ∀ page v, k.pipe page = some v → v.readopen = true ∨ v.writeopen = true
  nodup : k.freelist.Nodup
  pages : ∀ page, page ∈ pages ↔ page ∈ k.freelist ∨ (k.pipe page).isSome = true
  apart : ∀ page ∈ k.freelist, k.pipe page = none

/-- In the middle of a call: the counts as the tables T and the references that the call itself
holds make them, with the files that it has not yet set up. -/
structure Kernel.Counted (k : Kernel) (pages : List Page) (T : Slot → Task) (F : FileSlot → Nat)
    (R : InodeSlot → Nat) (K : InodeSlot → Bool) (n : Nat) (N : List FileSlot) : Prop where
  fs : k.fs.Refs (fun ip => fileCount k.file ip + cwdCount T ip + R ip) K
  ref : ∀ f, (k.file f).ref = fdCount T f + F f
  free : ∀ f, (k.file f).ref = 0 → (k.file f).type = .none
  typed : ∀ f, (k.file f).type = .none → 0 < (k.file f).ref → f ∈ N
  dead : ∀ p, (T p).live = false → (∀ fd, (T p).ofile fd = none) ∧ (T p).cwd = none
  pipes : k.Pipes pages
  outstanding : k.outstanding = n

variable {k : Kernel} {pages : List Page} {T : Slot → Task} {F : FileSlot → Nat}
  {R : InodeSlot → Nat}
  {K : InodeSlot → Bool} {n : Nat} {N : List FileSlot} {p : Slot} {f : FileSlot} {fd : Fd}
  {ip : InodeSlot}

/-- A task table in which a descriptor changes. -/
def withFd (T : Slot → Task) (p : Slot) (fd : Fd) (v : Option FileSlot) : Slot → Task :=
  Function.update T p { T p with ofile := Function.update (T p).ofile fd v }

theorem fdCount_withFd (T : Slot → Task) (p : Slot) (fd : Fd) (v : Option FileSlot) (g : FileSlot) :
    fdCount (withFd T p fd v) g + (if (T p).ofile fd = some g then 1 else 0) =
      fdCount T g + if v = some g then 1 else 0 := by
  have hupdate : (fun q : Slot × Fd => (withFd T p fd v q.1).ofile q.2) =
      Function.update (fun q : Slot × Fd => (T q.1).ofile q.2) (p, fd) v := by
    funext q
    obtain ⟨q, e⟩ := q
    by_cases hq : q = p
    · subst hq
      by_cases he : e = fd
      · subst he
        simp [withFd]
      · simp [withFd, he]
    · simp [withFd, hq]
  have hcount := Counts.count_update (f := fun q : Slot × Fd => (T q.1).ofile q.2) (p := (p, fd))
    (v := v)
    (c := (· = some g))
  rw [← hupdate] at hcount
  exact hcount

theorem cwdCount_withFd (v : Option FileSlot) (ip : InodeSlot) :
    cwdCount (withFd T p fd v) ip = cwdCount T ip := by
  refine Counts.count_congr fun q => ?_
  by_cases hq : q = p
  · subst hq
    simp [withFd]
  · simp [withFd, hq]

theorem Kernel.Counted.addFd (h : k.Counted pages T (plus F f) R K n N) (p : Slot) (fd : Fd)
    (hlive : (T p).live = true)
    (hfd : (T p).ofile fd = none) : k.Counted pages (withFd T p fd (some f)) F R K n N := by
  refine { h with fs := ?_, ref := fun g => ?_, dead := fun q hq => ?_ }
  · simpa only [cwdCount_withFd] using h.fs
  · have hcount := fdCount_withFd T p fd (some f) g
    have href := h.ref g
    rw [plus_apply] at href
    simp only [hfd, reduceCtorEq, if_false, Option.some.injEq] at hcount
    by_cases hg : g = f
    · subst hg
      simp only [if_true] at hcount href
      omega
    · simp only [hg, Ne.symm hg, if_false] at hcount href
      omega
  · by_cases hqp : q = p
    · subst hqp
      simp only [withFd, Function.update_self] at hq
      simp only [Task.live] at hq hlive
      rw [hlive] at hq
      exact absurd hq (by simp)
    · simp only [withFd, Function.update_of_ne hqp] at hq ⊢
      exact h.dead q hq

theorem Kernel.Counted.dropFd (h : k.Counted pages T F R K n N) (hfd : (T p).ofile fd = some f) :
    k.Counted pages (withFd T p fd none) (plus F f) R K n N := by
  refine { h with fs := ?_, ref := fun g => ?_, dead := fun q hq => ?_ }
  · simpa only [cwdCount_withFd] using h.fs
  · have hcount := fdCount_withFd T p fd none g
    have href := h.ref g
    rw [plus_apply]
    simp only [hfd, reduceCtorEq, if_false, Option.some.injEq] at hcount
    by_cases hg : g = f
    · subst hg
      simp only [if_true] at hcount ⊢
      omega
    · simp only [hg, Ne.symm hg, if_false] at hcount ⊢
      omega
  · by_cases hqp : q = p
    · subst hqp
      simp only [withFd, Function.update_self] at hq ⊢
      obtain ⟨hnone, hcwd⟩ := h.dead q hq
      simp [hnone] at hfd
    · simp only [withFd, Function.update_of_ne hqp] at hq ⊢
      exact h.dead q hq

theorem Kernel.Counted.setFs {s : Fs} {R' : InodeSlot → Nat} {K' : InodeSlot → Bool}
    (h : k.Counted pages T F R K n N)
    (hs : s.Refs (fun ip => fileCount k.file ip + cwdCount T ip + R' ip) K') :
    { k with fs := s }.Counted pages T F R' K' n N := { h with fs := hs, pipes := { h.pipes with } }

theorem fileCount_update (file : FileSlot → File) (f : FileSlot) (v : File) (ip : InodeSlot) :
    fileCount (Function.update file f v) ip + (if (file f).type = .inode ip then 1 else 0) =
      fileCount file ip + if v.type = .inode ip then 1 else 0 :=
  Counts.count_update (c := fun v : File => v.type = .inode ip)

theorem fileCount_update_same {file : FileSlot → File} {v : File} (hv : v.type = (file f).type) :
    fileCount (Function.update file f v) = fileCount file := by
  funext ip
  have hcount := fileCount_update file f v ip
  rw [hv] at hcount
  omega

theorem fileCount_update_other {file : FileSlot → File} {v : File}
    (hold : (file f).type ≠ .inode ip)
    (hnew : v.type ≠ .inode ip) : fileCount (Function.update file f v) ip = fileCount file ip := by
  have hcount := fileCount_update file f v ip
  rwa [if_neg hold, if_neg hnew] at hcount

theorem Kernel.Pipes.setFile {v : File} (h : k.Pipes pages) (htype : v.type = (k.file f).type)
    (hwrite : v.writable = (k.file f).writable) :
    { k with file := Function.update k.file f v }.Pipes pages := by
  have ht : ∀ g, (Function.update k.file f v g).type = (k.file g).type := by
    intro g
    by_cases hg : g = f
    · subst hg
      simpa using htype
    · simp [hg]
  have hw : ∀ g, (Function.update k.file f v g).writable = (k.file g).writable := by
    intro g
    by_cases hg : g = f
    · subst hg
      simpa using hwrite
    · simp [hg]
  exact
    { file := by simpa only [ht, hw] using h.file
      unique := by simpa only [ht, hw] using h.unique
      holder := by simpa only [ht, hw] using h.holder
      used := h.used
      nodup := h.nodup
      pages := h.pages
      apart := h.apart }

theorem Kernel.Counted.setRef {m : Nat} {G : FileSlot → Nat} {M : List FileSlot}
    (h : k.Counted pages T F R K n N) (hself : m = fdCount T f + G f)
    (hother : ∀ g, g ≠ f → G g = F g) (hfree : m = 0 → (k.file f).type = .none)
    (htyped : (k.file f).type = .none → 0 < m → f ∈ M) (hN : ∀ g ∈ N, g ≠ f → g ∈ M) :
    { k with file := Function.update k.file f { k.file f with ref := m } }.Counted pages T G R K
      n M where
  fs := by simpa only [fileCount_update_same (v := { k.file f with ref := m }) rfl] using h.fs
  ref g := by
    by_cases hg : g = f
    · subst hg
      simpa using hself
    · simpa [hg, hother g hg] using h.ref g
  free g hg0 := by
    by_cases hg : g = f
    · subst hg
      simp only [Function.update_self] at hg0 ⊢
      exact hfree hg0
    · simp only [Function.update_of_ne hg] at hg0 ⊢
      exact h.free g hg0
  typed g hnone hpos := by
    by_cases hg : g = f
    · subst hg
      simp only [Function.update_self] at hnone hpos
      exact htyped hnone hpos
    · simp only [Function.update_of_ne hg] at hnone hpos
      exact hN g (h.typed g hnone hpos) hg
  dead := h.dead
  pipes := h.pipes.setFile rfl rfl
  outstanding := h.outstanding

theorem filealloc_counted (h : k.Counted pages T F R K n N) :
    filealloc.wp (fun r t => match r with
      | none => t = k
      | some f => t.task = k.task ∧ t.Counted pages T (plus F f) R K n (f :: N) ∧ (t.file f).type = .none ∧
          (t.file f).ref = 1 ∧ (∀ g, g ≠ f → t.file g = k.file g) ∧ (k.file f).ref = 0) (fun _ _ => True) k := by
  simp only [filealloc, Prog.wp_bind, Prog.wp_get]
  split
  next f hfind =>
    have hzero : (k.file f).ref = 0 := by simpa using List.find?_some hfind
    have href := h.ref f
    have hset := h.setRef (f := f) (m := 1) (G := plus F f) (M := f :: N)
      (by rw [plus_apply, if_pos rfl]; omega)
      (fun g hg => by rw [plus_apply, if_neg hg]; rfl) (by simp) (fun _ _ => by simp) fun g hg _ =>
        by simp [hg]
    simp only [setFile, Prog.wp_bind, Prog.wp_modify, Prog.wp_pure, true_and]
    exact ⟨hset, by simpa using h.free f hzero, by simp, fun g hg => by simp [hg], hzero⟩
  next => rfl

theorem filedup_counted (h : k.Counted pages T F R K n N) :
    (filedup f).wp (fun _ t => t.task = k.task ∧ t.Counted pages T (plus F f) R K n N)
      (fun _ _ => True) k := by
  simp only [filedup, Prog.wp_bind, Prog.wp_get]
  refine Prog.wp_ite (fun _ => trivial) fun hpos => ?_
  have href := h.ref f
  refine ⟨rfl, h.setRef ?_ (fun g hg => by rw [plus_apply, if_neg hg]; rfl) (by simp)
    (fun hnone _ => h.typed f hnone (by omega)) fun g hg _ => hg⟩
  rw [plus_apply, if_pos rfl]
  omega

theorem Kernel.Pipes.setFile_other {v : File} (h : k.Pipes pages)
    (hold : ∀ page, (k.file f).type ≠ .pipe page) (hnew : ∀ page, v.type ≠ .pipe page) :
    { k with file := Function.update k.file f v }.Pipes pages := by
  have hg : ∀ {g page}, (Function.update k.file f v g).type = .pipe page → g ≠ f := by
    rintro g page ht rfl
    exact hnew page (by simpa using ht)
  have hg' : ∀ {g page}, (k.file g).type = .pipe page → g ≠ f := by
    rintro g page ht rfl
    exact hold page ht
  refine
    { file := fun g page ht => ?_
      unique := fun g g' page ht ht' hw => ?_
      holder := fun page v w hv ho => ?_
      used := h.used
      nodup := h.nodup
      pages := h.pages
      apart := h.apart }
  · have hne := hg ht
    simp only [Function.update_of_ne hne] at ht ⊢
    exact h.file g page ht
  · have hne := hg ht
    have hne' := hg ht'
    simp only [Function.update_of_ne hne, Function.update_of_ne hne'] at ht ht' hw
    exact h.unique g g' page ht ht' hw
  · obtain ⟨g, ht, hw⟩ := h.holder page v w hv ho
    exact ⟨g, by simpa [Function.update_of_ne (hg' ht)] using ht,
      by simpa [Function.update_of_ne (hg' ht)] using hw⟩

/-- A file as fileclose leaves it when its last reference goes. -/
def File.closed (v : File) : File := { v with ref := 0, type := .none }

theorem Kernel.Counted.close {k' : Kernel} {R' : InodeSlot → Nat} {N' : List FileSlot}
    (h : k.Counted pages T (plus F f) R K n N) (hlast : (k.file f).ref = 1)
    (hfile : k'.file = Function.update k.file f (k.file f).closed) (hfs : k'.fs = k.fs)
    (hout : k'.outstanding = k.outstanding)
    (hR : ∀ jp, fileCount k'.file jp + R' jp = fileCount k.file jp + R jp)
    (hN : ∀ g ∈ N, g ≠ f → g ∈ N') (hpipes : k'.Pipes pages) : k'.Counted pages T F R' K n N' where
  fs := by
    have hcount : ∀ jp, fileCount k'.file jp + cwdCount T jp + R' jp =
        fileCount k.file jp + cwdCount T jp + R jp := by
      intro jp
      have hjp := hR jp
      omega
    simpa only [hcount, hfs] using h.fs
  ref g := by
    have href := h.ref g
    rw [plus_apply] at href
    rw [hfile]
    by_cases hg : g = f
    · subst hg
      simp only [if_true, hlast] at href
      simp only [Function.update_self, File.closed]
      omega
    · simp only [hg, if_false, Nat.add_zero] at href
      simpa only [Function.update_of_ne hg] using href
  free g hg0 := by
    rw [hfile] at hg0 ⊢
    by_cases hg : g = f
    · subst hg
      simp [File.closed]
    · simp only [Function.update_of_ne hg] at hg0 ⊢
      exact h.free g hg0
  typed g hnone hpos := by
    rw [hfile] at hnone hpos
    by_cases hg : g = f
    · subst hg
      simp [File.closed] at hpos
    · simp only [Function.update_of_ne hg] at hnone hpos
      exact hN g (h.typed g hnone hpos) hg
  dead := h.dead
  pipes := hpipes
  outstanding := hout.trans h.outstanding

theorem fileCount_closed (file : FileSlot → File) (f : FileSlot) (jp : InodeSlot) :
    fileCount (Function.update file f (file f).closed) jp +
      (if (file f).type = .inode jp then 1 else 0) =
      fileCount file jp := by
  simpa [File.closed] using fileCount_update file f (file f).closed jp

theorem fileclose_fresh (h : k.Counted pages T (plus F f) R K n N) (hlast : (k.file f).ref = 1)
    (htype : (k.file f).type = .none) :
    (fileclose f).wp (fun _ t => t.task = k.task ∧ t.Counted pages T F R K n (N.filter (· ≠ f)) ∧
      ∀ g, g ≠ f → t.file g = k.file g) (fun _ _ => True) k := by
  simp only [fileclose, Prog.wp_bind, Prog.wp_get, hlast, htype]
  simp only [Nat.lt_irrefl, if_false, Nat.sub_self, setFile, Prog.wp_bind, Prog.wp_modify,
    Prog.wp_pure]
  refine ⟨trivial, ?_, fun g hg => by simp [hg]⟩
  refine h.close hlast rfl rfl rfl (fun jp => ?_) (fun g hg hne => by simp [hg, hne])
    (h.pipes.setFile_other (by simp [htype]) (by simp))
  have hcount := fileCount_closed k.file f jp
  simp only [htype, reduceCtorEq, if_false, Nat.add_zero] at hcount
  exact congrArg (· + R jp) hcount

section

variable {page : Page} {v : Pipe}

/-- The pipe with one end closed. -/
def Pipe.without (v : Pipe) (writable : Bool) : Pipe :=
  if writable then { v with writeopen := false } else { v with readopen := false }

theorem Pipe.isOpen_without (w w' : Bool) :
    (v.without w').isOpen w = if w = w' then false else v.isOpen w := by
  cases w <;> cases w' <;> rfl

/-- The other file of the pipe is its other end. -/
theorem Kernel.Pipes.other_end (h : k.Pipes pages) (htype : (k.file f).type = .pipe page)
    {g : FileSlot} (hg : (k.file g).type = .pipe page)
    (hne : g ≠ f) : (k.file g).writable ≠ (k.file f).writable :=
  fun he => hne (h.unique g f page hg htype he)

theorem Kernel.Pipes.ne_of_page (htype : (k.file f).type = .pipe page) {g : FileSlot} {page' : Page}
    (hg : (k.file g).type = .pipe page') (hne : page' ≠ page) : g ≠ f := by
  rintro rfl
  rw [htype] at hg
  exact hne (FileType.pipe.inj hg).symm

theorem Kernel.Pipes.closeFirst (h : k.Pipes pages) (htype : (k.file f).type = .pipe page)
    (hv : k.pipe page = some v)
    (hopen : ¬ ((v.without (k.file f).writable).readopen = false ∧
      (v.without (k.file f).writable).writeopen = false)) :
    { k with file := Function.update k.file f (k.file f).closed
             pipe := Function.update k.pipe page (some (v.without (k.file f).writable)) }.Pipes pages := by
  have hg : ∀ {g page}, (Function.update k.file f (k.file f).closed g).type = .pipe page →
      g ≠ f := by
    rintro g page ht rfl
    simp [File.closed] at ht
  refine
    { file := fun g page' ht => ?_
      unique := fun g g' page' ht ht' hw => ?_
      holder := fun page' u w hu ho => ?_
      used := fun page' u hu => ?_
      nodup := h.nodup
      pages := fun page' => ?_
      apart := fun page' hp => ?_ }
  · have hne := hg ht
    simp only [Function.update_of_ne hne] at ht ⊢
    obtain ⟨u, hu, ho⟩ := h.file g page' ht
    by_cases hpage : page' = page
    · subst hpage
      cases Option.some.inj (hu.symm.trans hv)
      refine ⟨v.without (k.file f).writable, by simp, ?_⟩
      rw [Pipe.isOpen_without, if_neg (h.other_end htype ht hne)]
      exact ho
    · exact ⟨u, by simpa [hpage] using hu, ho⟩
  · have hne := hg ht
    have hne' := hg ht'
    simp only [Function.update_of_ne hne, Function.update_of_ne hne'] at ht ht' hw
    exact h.unique g g' page' ht ht' hw
  · by_cases hpage : page' = page
    · subst hpage
      simp only [Function.update_self, Option.some.injEq] at hu
      subst hu
      rw [Pipe.isOpen_without] at ho
      split at ho
      next => simp at ho
      next hw =>
        obtain ⟨g, hgt, hgw⟩ := h.holder page' v w hv ho
        have hne : g ≠ f := by
          rintro rfl
          exact hw hgw.symm
        exact ⟨g, by simpa [hne] using hgt, by simpa [hne] using hgw⟩
    · simp only [Function.update_of_ne hpage] at hu
      obtain ⟨g, hgt, hgw⟩ := h.holder page' u w hu ho
      have hne := Kernel.Pipes.ne_of_page htype hgt hpage
      exact ⟨g, by simpa [hne] using hgt, by simpa [hne] using hgw⟩
  · by_cases hpage : page' = page
    · subst hpage
      simp only [Function.update_self, Option.some.injEq] at hu
      subst hu
      by_contra hno
      simp only [not_or, Bool.not_eq_true] at hno
      exact hopen hno
    · simp only [Function.update_of_ne hpage] at hu
      exact h.used page' u hu
  · rw [h.pages page']
    by_cases hpage : page' = page
    · subst hpage
      simp [hv]
    · simp [hpage]
  · have hpage : page' ≠ page := by
      rintro rfl
      simp [h.apart page' hp] at hv
    simpa [hpage] using h.apart page' hp

theorem Kernel.Pipes.closeLast (h : k.Pipes pages) (htype : (k.file f).type = .pipe page)
    (hv : k.pipe page = some v)
    (hclosed : (v.without (k.file f).writable).readopen = false ∧
      (v.without (k.file f).writable).writeopen = false) :
    { k with file := Function.update k.file f (k.file f).closed
             pipe := Function.update k.pipe page none
             freelist := page :: k.freelist }.Pipes pages := by
  have hg : ∀ {g page}, (Function.update k.file f (k.file f).closed g).type = .pipe page →
      g ≠ f := by
    rintro g page ht rfl
    simp [File.closed] at ht
  have hother : ∀ {g page'}, g ≠ f → (k.file g).type = .pipe page' → page' ≠ page := by
    rintro g page' hne ht rfl
    obtain ⟨u, hu, ho⟩ := h.file g page' ht
    cases Option.some.inj (hu.symm.trans hv)
    have hstill : (v.without (k.file f).writable).isOpen (k.file g).writable = true := by
      rw [Pipe.isOpen_without, if_neg (h.other_end htype ht hne)]
      exact ho
    simp [Pipe.isOpen, hclosed] at hstill
  refine
    { file := fun g page' ht => ?_
      unique := fun g g' page' ht ht' hw => ?_
      holder := fun page' u w hu ho => ?_
      used := fun page' u hu => ?_
      nodup := ?_
      pages := fun page' => ?_
      apart := fun page' hp => ?_ }
  · have hne := hg ht
    simp only [Function.update_of_ne hne] at ht ⊢
    obtain ⟨u, hu, ho⟩ := h.file g page' ht
    exact ⟨u, by simpa [hother hne ht] using hu, ho⟩
  · have hne := hg ht
    have hne' := hg ht'
    simp only [Function.update_of_ne hne, Function.update_of_ne hne'] at ht ht' hw
    exact h.unique g g' page' ht ht' hw
  · by_cases hpage : page' = page
    · simp [hpage] at hu
    · simp only [Function.update_of_ne hpage] at hu
      obtain ⟨g, hgt, hgw⟩ := h.holder page' u w hu ho
      have hne := Kernel.Pipes.ne_of_page htype hgt hpage
      exact ⟨g, by simpa [hne] using hgt, by simpa [hne] using hgw⟩
  · by_cases hpage : page' = page
    · simp [hpage] at hu
    · simp only [Function.update_of_ne hpage] at hu
      exact h.used page' u hu
  · refine List.nodup_cons.2 ⟨fun hp => ?_, h.nodup⟩
    simp [h.apart page hp] at hv
  · rw [h.pages page']
    by_cases hpage : page' = page
    · subst hpage
      simp [hv]
    · simp [hpage]
  · by_cases hpage : page' = page
    · simp [hpage]
    · simp only [List.mem_cons, hpage, false_or] at hp
      simpa [hpage] using h.apart page' hp

end

/-- fileclose drops a reference that the call holds, and with the last one what the file stands for.
-/
theorem fileclose_counted (h : k.Counted pages T (plus F f) R K n []) :
    (fileclose f).wp (fun _ t => t.task = k.task ∧ t.Counted pages T F R K n [])
      (fun _ _ => True) k := by
  have href := h.ref f
  rw [plus_apply, if_pos rfl] at href
  simp only [fileclose, Prog.wp_bind, Prog.wp_get]
  refine Prog.wp_ite (fun _ => trivial) fun hpos => Prog.wp_ite (fun hmore => ?_) fun hlast => ?_
  · refine ⟨rfl, h.setRef (by omega) (fun g hg => by rw [plus_apply, if_neg hg]; rfl) (by omega)
      (fun hnone _ => h.typed f hnone (by omega)) (by simp)⟩
  have hone : (k.file f).ref = 1 := by omega
  simp only [setFile, Prog.wp_bind, Prog.wp_modify]
  have hcount := fileCount_closed k.file f
  split
  next page htype =>
    simp only [htype, reduceCtorEq, if_false, Nat.add_zero] at hcount
    obtain ⟨v, hv, hopen⟩ := h.pipes.file f page htype
    simp only [pipeclose, Prog.wp_bind, Prog.wp_get, hv]
    refine Prog.wp_ite (fun hboth => ?_) fun hone' => ?_
    · refine ⟨rfl, h.close hone rfl rfl rfl (fun jp => ?_) (by simp) (h.pipes.closeLast htype hv hboth)⟩
      exact congrArg (· + R jp) (hcount jp)
    · refine ⟨rfl, h.close hone rfl rfl rfl (fun jp => ?_) (by simp) (h.pipes.closeFirst htype hv hone')⟩
      exact congrArg (· + R jp) (hcount jp)
  next ip htype =>
    have hclose : { k with file := Function.update k.file f (k.file f).closed }.Counted pages T F
      (plus R ip) K n
        [] := by
      refine h.close hone rfl rfl rfl (fun jp => ?_) (by simp)
        (h.pipes.setFile_other (by simp [htype]) (by simp [File.closed]))
      have hjp := hcount jp
      simp only [htype, FileType.inode.injEq] at hjp
      rw [plus_apply]
      by_cases hj : jp = ip
      · subst hj
        simp only [if_true] at hjp ⊢
        omega
      · simp only [hj, Ne.symm hj, if_false] at hjp ⊢
        omega
    simp only [beginOp, endOp, Prog.wp_bind, Prog.wp_modify, inFs, Prog.wp_zoom]
    have hfs := hclose.fs
    rw [← plus_add] at hfs
    exact Prog.wp_imp (iput_refs hfs) fun _ s hs => ⟨trivial, hclose.setFs hs⟩
  next htype => exact absurd (h.typed f htype (by omega)) (by simp)

theorem Kernel.Counted.congr {T' : Slot → Task} (h : k.Counted pages T F R K n N)
    (hfile : ∀ q, (T' q).ofile = (T q).ofile) (hcwd : ∀ q, (T' q).cwd = (T q).cwd)
    (hlive : ∀ q, (T' q).live = (T q).live) : k.Counted pages T' F R K n N := by
  have hfd : fdCount T' = fdCount T := by
    funext g
    simp only [fdCount, hfile]
  have hcw : cwdCount T' = cwdCount T := by
    funext jp
    exact Counts.count_congr fun q => by rw [hcwd q]
  refine { h with fs := by simpa only [hcw] using h.fs, ref := by simpa only [hfd] using h.ref, dead := fun q hq => ?_ }
  rw [hlive] at hq
  rw [hfile, hcwd]
  exact h.dead q hq

theorem Kernel.Counted.setCwd {v : Task} {Q : InodeSlot → Nat} (h : k.Counted pages T F R K n N)
    (hfile : v.ofile = (T p).ofile)
    (hdead : v.live = false → (∀ fd, v.ofile fd = none) ∧ v.cwd = none)
    (hR : ∀ jp, Q jp + (if v.cwd = some jp then 1 else 0) = R jp + if (T p).cwd = some jp then 1
      else 0) :
    k.Counted pages (Function.update T p v) F Q K n N := by
  have hfd : fdCount (Function.update T p v) = fdCount T := by
    funext g
    refine Counts.count_congr fun q => ?_
    by_cases hq : q.1 = p
    · simp [hq, hfile]
    · simp [hq]
  have hcw : ∀ jp, cwdCount (Function.update T p v) jp + (if (T p).cwd = some jp then 1 else 0) =
      cwdCount T jp + if v.cwd = some jp then 1 else 0 :=
    fun jp => Counts.count_update (c := fun t : Task => t.cwd = some jp)
  refine { h with fs := ?_, ref := by simpa only [hfd] using h.ref, dead := fun q hq => ?_ }
  · have hsum : ∀ jp, fileCount k.file jp + cwdCount (Function.update T p v) jp + Q jp =
        fileCount k.file jp + cwdCount T jp + R jp := by
      intro jp
      have h1 := hcw jp
      have h2 := hR jp
      omega
    simpa only [hsum] using h.fs
  · by_cases hqp : q = p
    · subst hqp
      simp only [Function.update_self] at hq ⊢
      exact hdead hq
    · simp only [Function.update_of_ne hqp] at hq ⊢
      exact h.dead q hq

theorem Kernel.Counted.setTask (h : k.Counted pages T F R K n N) (S : Slot → Task) :
    { k with task := S }.Counted pages T F R K n N := { h with pipes := { h.pipes with } }

theorem Kernel.Counted.setOutstanding (h : k.Counted pages T F R K n N) (m : Nat) :
    { k with outstanding := m }.Counted pages T F R K m N :=
      { h with pipes := { h.pipes with }, outstanding := rfl }

theorem Kernel.Counted.setUp {k' : Kernel} {R' : InodeSlot → Nat} {N' : List FileSlot}
    (h : k.Counted pages T F R K n N)
    (hset : ∀ g, k'.file g = k.file g ∨
      0 < (k.file g).ref ∧ (k'.file g).ref = (k.file g).ref ∧ (k'.file g).type ≠ .none)
    (hN : ∀ g ∈ N, k'.file g = k.file g → g ∈ N') (hfs : k'.fs = k.fs)
    (hout : k'.outstanding = k.outstanding)
    (hR : ∀ jp, fileCount k'.file jp + R' jp = fileCount k.file jp + R jp)
    (hpipes : k'.Pipes pages) :
    k'.Counted pages T F R' K n N' where
  fs := by
    have hcount : ∀ jp, fileCount k'.file jp + cwdCount T jp + R' jp =
        fileCount k.file jp + cwdCount T jp + R jp := by
      intro jp
      have hjp := hR jp
      omega
    simpa only [hcount, hfs] using h.fs
  ref g := by
    rcases hset g with he | ⟨-, he, -⟩
    · rw [he]
      exact h.ref g
    · rw [he]
      exact h.ref g
  free g hg0 := by
    rcases hset g with he | ⟨hpos, he, -⟩
    · rw [he] at hg0 ⊢
      exact h.free g hg0
    · omega
  typed g hnone hpos := by
    rcases hset g with he | ⟨-, -, hne⟩
    · exact hN g (h.typed g (he ▸ hnone) (he ▸ hpos)) he
    · exact absurd hnone hne
  dead := h.dead
  pipes := hpipes
  outstanding := hout.trans h.outstanding

theorem Kernel.Counted.openInode {v : File} (h : k.Counted pages T F (plus R ip) K n N)
    (hnone : (k.file f).type = .none) (hpos : 0 < (k.file f).ref) (href : v.ref = (k.file f).ref)
    (htype : v.type = .inode ip) :
    { k with file := Function.update k.file f v }.Counted pages T F R K n (N.filter (· ≠ f)) := by
  refine h.setUp (fun g => ?_) (fun g hg he => ?_) rfl rfl (fun jp => ?_)
    (h.pipes.setFile_other (by simp [hnone]) (by simp [htype]))
  · by_cases hg : g = f
    · subst hg
      simp [hpos, href, htype]
    · simp [hg]
  · have hne : g ≠ f := by
      rintro rfl
      simp only [Function.update_self] at he
      simp [he, hnone] at htype
    simp [hg, hne]
  · have hjp := fileCount_update k.file f v jp
    simp only [hnone, htype, reduceCtorEq, if_false, FileType.inode.injEq] at hjp
    simp only [plus_apply, eq_comm (a := jp)]
    omega

theorem Kernel.Pipes.openBoth {page : Page} {rest : List Page} {f0 f1 : FileSlot} {v0 v1 : File}
    (h : k.Pipes pages) (hfree : k.freelist = page :: rest) (hne : f0 ≠ f1)
    (h0 : (k.file f0).type = .none) (h1 : (k.file f1).type = .none) (hv0 : v0.type = .pipe page)
    (hw0 : v0.writable = false) (hv1 : v1.type = .pipe page) (hw1 : v1.writable = true) :
    { k with file := Function.update (Function.update k.file f0 v0) f1 v1
             pipe := Function.update k.pipe page (some ⟨true, true⟩)
             freelist := rest }.Pipes pages := by
  have hnodup := h.nodup
  rw [hfree, List.nodup_cons] at hnodup
  have hpage : k.pipe page = none := h.apart page (by simp [hfree])
  have hget0 : Function.update (Function.update k.file f0 v0) f1 v1 f0 = v0 := by simp [hne]
  have hget1 : Function.update (Function.update k.file f0 v0) f1 v1 f1 = v1 := by simp
  have hget : ∀ {g}, g ≠ f0 → g ≠ f1 →
      Function.update (Function.update k.file f0 v0) f1 v1 g = k.file g := by
    intro g hg0 hg1
    simp [hg0, hg1]
  have hold : ∀ {g page'}, (k.file g).type = .pipe page' → g ≠ f0 ∧ g ≠ f1 ∧ page' ≠ page := by
    intro g page' ht
    refine ⟨?_, ?_, ?_⟩
    · rintro rfl
      simp [h0] at ht
    · rintro rfl
      simp [h1] at ht
    · rintro rfl
      obtain ⟨u, hu, -⟩ := h.file g page' ht
      simp [hpage] at hu
  have hnew : ∀ {g page'}, (Function.update (Function.update k.file f0 v0) f1 v1 g).type =
      .pipe page' →
      (g = f0 ∨ g = f1) ∧ page' = page ∨ g ≠ f0 ∧ g ≠ f1 ∧ page' ≠ page ∧ (k.file g).type = .pipe page' := by
    intro g page' ht
    by_cases hg0 : g = f0
    · subst hg0
      rw [hget0, hv0] at ht
      exact .inl ⟨.inl rfl, (FileType.pipe.inj ht).symm⟩
    · by_cases hg1 : g = f1
      · subst hg1
        rw [hget1, hv1] at ht
        exact .inl ⟨.inr rfl, (FileType.pipe.inj ht).symm⟩
      · rw [hget hg0 hg1] at ht
        exact .inr ⟨hg0, hg1, (hold ht).2.2, ht⟩
  refine
    { file := fun g page' ht => ?_
      unique := fun g g' page' ht ht' hw => ?_
      holder := fun page' u w hu ho => ?_
      used := fun page' u hu => ?_
      nodup := hnodup.2
      pages := fun page' => ?_
      apart := fun page' hp => ?_ }
  · rcases hnew ht with ⟨hg, rfl⟩ | ⟨hg0, hg1, hp, ht⟩
    · exact ⟨⟨true, true⟩, by simp, by simp [Pipe.isOpen]⟩
    · obtain ⟨u, hu, ho⟩ := h.file g page' ht
      exact ⟨u, by simpa [hp] using hu, by simpa only [hget hg0 hg1] using ho⟩
  · rcases hnew ht with ⟨hg, rfl⟩ | ⟨hg0, hg1, hp, ht⟩
    · rcases hnew ht' with ⟨hg', -⟩ | ⟨-, -, hp', -⟩
      · rcases hg with rfl | rfl <;> rcases hg' with rfl | rfl <;> simp_all
      · exact absurd rfl hp'
    · rcases hnew ht' with ⟨hg', hp'⟩ | ⟨hg0', hg1', -, ht'⟩
      · exact absurd hp' hp
      · simp only [hget hg0 hg1, hget hg0' hg1'] at hw
        exact h.unique g g' page' ht ht' hw
  · by_cases hp : page' = page
    · subst hp
      cases w with
      | false => exact ⟨f0, by simp only [hget0, hv0], by simp only [hget0, hw0]⟩
      | true => exact ⟨f1, by simp only [hget1, hv1], by simp only [hget1, hw1]⟩
    · simp only [Function.update_of_ne hp] at hu
      obtain ⟨g, ht, hw⟩ := h.holder page' u w hu ho
      obtain ⟨hg0, hg1, -⟩ := hold ht
      exact ⟨g, by simpa only [hget hg0 hg1] using ht, by simpa only [hget hg0 hg1] using hw⟩
  · by_cases hp : page' = page
    · subst hp
      simp only [Function.update_self, Option.some.injEq] at hu
      exact .inl (hu ▸ rfl)
    · simp only [Function.update_of_ne hp] at hu
      exact h.used page' u hu
  · rw [h.pages page', hfree]
    by_cases hp : page' = page
    · simp [hp]
    · simp [hp]
  · have hne' : page' ≠ page := fun he => hnodup.1 (he ▸ hp)
    simpa [hne'] using h.apart page' (by simp [hfree, hp])

/-- A failing pipealloc gives back the files it has. -/
theorem pipealloc_counted {mem : Bool} (h : k.Counted pages T F R K n []) :
    (pipealloc mem).wp (fun r t => t.task = k.task ∧ match r with
      | none => t.Counted pages T F R K n []
      | some (f0, f1) => t.Counted pages T (plus (plus F f1) f0) R K n []) (fun _ _ => True) k := by
  simp only [pipealloc, Prog.wp_bind]
  refine Prog.wp_imp (filealloc_counted h) fun r t ht => ?_
  cases r with
  | none =>
    subst ht
    exact ⟨rfl, h⟩
  | some f0 =>
    obtain ⟨htask, ht, hnone, hone, -, -⟩ := ht
    simp only [Prog.wp_bind]
    refine Prog.wp_imp (filealloc_counted ht) fun r t' ht' => ?_
    cases r with
    | none =>
      subst ht'
      simp only [pipeallocBad, Prog.wp_bind, Prog.wp_pure]
      refine Prog.wp_imp (fileclose_fresh ht hone hnone) fun _ t' hpost => ?_
      obtain ⟨htask', ht', _⟩ := hpost
      exact ⟨htask'.trans htask, by simpa using ht'⟩
    | some f1 =>
      obtain ⟨htask', ht', hnone', hone', hsame, hzero⟩ := ht'
      have hne : f0 ≠ f1 := by
        rintro rfl
        omega
      rw [← hsame f0 hne] at hnone hone
      rw [plus_comm] at ht'
      simp only [kalloc, Prog.wp_bind, Prog.wp_get]
      split
      next page rest hfree =>
        simp only [setPipe, setFile, Prog.wp_bind, Prog.wp_set, Prog.wp_modify, Prog.wp_get, Prog.wp_pure]
        refine ⟨htask'.trans htask, ht'.setUp (fun g => ?_) (fun g hg he => ?_) rfl rfl (fun jp => ?_)
          (ht'.pipes.openBoth hfree hne hnone hnone' rfl rfl rfl rfl)⟩
        · by_cases hg1 : g = f1
          · subst hg1
            simp [hone']
          · by_cases hg0 : g = f0
            · subst hg0
              simp [hone, hne]
            · simp [hg0, hg1]
        · have htype := congrArg File.type he
          rcases List.mem_cons.1 hg with rfl | hg
          · simp [hnone'] at htype
          · rcases List.mem_singleton.1 hg with rfl
            simp [hnone, hne] at htype
        · rw [fileCount_update_other (by simp [hne.symm, hnone']) (by simp),
            fileCount_update_other (by simp [hnone]) (by simp)]
      next =>
        simp only [pipeallocBad, Prog.wp_bind, Prog.wp_pure]
        refine Prog.wp_imp (fileclose_fresh ht' hone hnone) fun _ u hpost => ?_
        obtain ⟨hutask, hu, husame⟩ := hpost
        rw [← husame f1 hne.symm] at hnone' hone'
        refine Prog.wp_imp (fileclose_fresh hu hone' hnone') fun _ w hpost => ?_
        obtain ⟨hwtask, hw, _⟩ := hpost
        exact ⟨hwtask.trans (hutask.trans (htask'.trans htask)), by simpa [hne.symm] using hw⟩

end Xv6
