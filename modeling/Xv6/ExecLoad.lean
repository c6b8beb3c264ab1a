import Xv6.ExecHeader
import Xv6.ExecStack

namespace Xv6

open Bytes Prog

variable {k : KernelImage} {devsw : Devsw} {ip : InodeSlot} {P P' : Fs → Prop}
  {c : Option (List Byte)}
  {d d' : PageDir} {s₀ : Kmem} {s : ExecState} {sz : Nat} {m₀ m : Nat → Block PGSIZE} {fine : Prop}

/-- The file as exec uses it: P holds of the file system while ip is locked and P' afterwards. If c
gives the contents, that is what a read delivers that comes to its end. The calls return if all is
fine. -/
structure Serves (devsw : Devsw) (ip : InodeSlot) (P P' : Fs → Prop) (c : Option (List Byte))
    (fine : Prop) :
    Prop where
  read : ∀ f off n, P f → (readInto devsw ip off n).wp
    (fun r f' => P f' ∧ ∀ b, c = some b →
      (r.ret = n → off + n ≤ b.length ∧ r.data = (b.drop off).take n) ∧
      (off = 0 → 0 ≤ r.ret) ∧ (off + n ≤ b.length → r.ret = n)) (fun _ _ => ¬ fine) f
  unlock : ∀ f, P f → (iunlockput ip).wp (fun _ f' => P' f') (fun _ _ => ¬ fine) f
  small : ∀ b, c = some b → b.length < 2 ^ 32

/-- How exec may stop: a call of the file system does not return, or copyout follows a null pointer.
The pages that were in use are as they were. -/
def Halts (fine : Prop) (s₀ : Kmem) (e : ExecHalt) (t : ExecState) : Prop :=
  ((e = .vm .nullPte ∨ ∃ h, e = .fs h) ∧ ∀ f ∉ s₀.freelist, t.mem.mem f = s₀.mem f) ∧ ¬ fine

/-- The byte at va, whether or not it is open to the user. -/
def PageDir.byteAt (d : PageDir) (m : Nat → Block PGSIZE) (va : Nat) : Option Byte :=
  (d.mapping (va / PGSIZE)).map fun e => byte (m e.addr) (va % PGSIZE)

theorem SamePage.byteAt {s t : Kmem} {va : Nat} (h : SamePage d s d' t (va / PGSIZE)) :
    d'.byteAt t.mem va = d.byteAt s.mem va := by
  unfold PageDir.byteAt
  rw [h.1]
  cases hm : d.mapping (va / PGSIZE) with
  | none => rfl
  | some e => rw [Option.map_some, Option.map_some, h.2 e hm]

/-- The bytes of [lo, hi) are those of g, the others are as in m₀. -/
def Filled (d : PageDir) (m₀ m : Nat → Block PGSIZE) (lo hi : Nat) (g : Nat → Byte) : Prop :=
  ∀ va < 2 ^ 31, d.byteAt m va = if lo ≤ va ∧ va < hi then some (g va) else d.byteAt m₀ va

theorem Filled.refl {lo : Nat} {g : Nat → Byte} : Filled d m m lo lo g := by
  intro va _
  rw [if_neg (by omega)]

theorem Filled.page {lo v : Nat} {g : Nat → Byte} {e : Pte} {data : List Byte}
    (h : Filled d m₀ m lo (v * PGSIZE) g) (hlo : lo ≤ v * PGSIZE) (he : d.mapping v = some e)
    (hsep : ∀ w < 2 ^ 19, ∀ e', d.mapping w = some e' → e'.addr = e.addr → w = v)
    (hlen : data.length ≤ PGSIZE) (hg : ∀ o (ho : o < data.length), g (v * PGSIZE + o) = data[o]) :
    Filled d m₀ (Function.update m e.addr (put (m e.addr) 0 data)) lo
      (v * PGSIZE + data.length) g := by
  intro va hva
  have hpage : va / PGSIZE < 2 ^ 19 := by
    simp only [PGSIZE]
    omega
  have hold := h va hva
  by_cases hin : va / PGSIZE = v
  · have hsplit : va = v * PGSIZE + va % PGSIZE := by
      rw [← hin]
      exact (Nat.div_add_mod' va PGSIZE).symm
    have hoff := Nat.mod_lt va (by decide : 0 < PGSIZE)
    have hat : d.byteAt (Function.update m e.addr (put (m e.addr) 0 data)) va =
        some (byte (put (m e.addr) 0 data) (va % PGSIZE)) := by
      unfold PageDir.byteAt
      rw [hin, he, Option.map_some, Function.update_self]
    have hat₀ : d.byteAt m va = some (byte (m e.addr) (va % PGSIZE)) := by
      unfold PageDir.byteAt
      rw [hin, he, Option.map_some]
    rw [hat]
    by_cases hdata : va % PGSIZE < data.length
    · rw [if_pos (by omega), byte_put_inside _ (Nat.zero_le _) (by omega) hoff 0, hsplit, hg _ hdata]
      simp [hdata]
    · rw [byte_put_outside _ (by omega), ← hat₀, hold, if_neg (by omega), if_neg (by omega)]
  · have hat : d.byteAt (Function.update m e.addr (put (m e.addr) 0 data)) va = d.byteAt m va := by
      unfold PageDir.byteAt
      cases hm : d.mapping (va / PGSIZE) with
      | none => rfl
      | some e' =>
        rw [Option.map_some, Option.map_some, Function.update_of_ne fun heq => hin (hsep _ hpage e' hm heq)]
    rw [hat, hold]
    have hiff : (lo ≤ va ∧ va < v * PGSIZE) ↔ (lo ≤ va ∧ va < v * PGSIZE + data.length) := by
      simp only [PGSIZE] at *
      omega
    simp only [hiff]

theorem NewDir.halts_fs (h : NewDir s₀ d sz s.mem) (e : FsHalt) (f : Fs) (hbad : ¬ fine) :
    Halts fine s₀ (.fs e) { s with fs := f } :=
  ⟨⟨.inr ⟨e, rfl⟩, h.mem⟩, hbad⟩

/-- One turn of the loop of loaduvm: what the read has delivered is put at the start of page v. -/
theorem loadPage_wp (hserve : Serves devsw ip P P' c fine) (hg : s₀.Good k)
    (h : Building s₀ d sz s.mem) (hP : P s.fs) {addr offset filesz i v : Nat} {e : Pte}
    (hv : v < 2 ^ 19) (haddr : addr + i = v * PGSIZE) (he : d.mapping v = some e) (hi : i < filesz)
    (hfine : fine → ∃ b, c = some b ∧ offset + filesz ≤ b.length) :
    (Exec.loadPage devsw ip d addr offset filesz i).wp
      (fun ok t => ∃ f, ∃ data : List Byte,
        t = { s with
          fs := f,
          mem := { s.mem with mem := Function.update s.mem.mem e.addr (put (s.mem.mem e.addr) 0 data) } } ∧
        P f ∧ Building s₀ d sz t.mem ∧ (ok = true → data.length = min (filesz - i) PGSIZE ∧
          ∀ b, c = some b → (offset + i) % 2 ^ 32 + min (filesz - i) PGSIZE ≤ b.length ∧
            data = (b.drop ((offset + i) % 2 ^ 32)).take (min (filesz - i) PGSIZE)) ∧ (ok = false → ¬ fine))
      (Halts fine s₀) s := by
  have hn : (if filesz - i < PGSIZE then filesz - i else PGSIZE) = min (filesz - i) PGSIZE := by
    split <;> omega
  have hwrap : (addr + i) % 2 ^ 32 = v * PGSIZE := by
    rw [haddr]
    simp only [PGSIZE]
    omega
  obtain ⟨hload, _⟩ := mapping_eq_some he
  unfold Exec.loadPage
  rw [wp_bind, Exec.wp_onVm, hwrap, wp_ok (walkpgdir_present (by omega) he)]
  dsimp only
  rw [hload, hn, wp_bind, Exec.wp_onFs]
  refine wp_mono (hserve.read s.fs ((offset + i) % 2 ^ 32) (min (filesz - i) PGSIZE) hP) ?_
    fun x f hbad => h.toNewDir.halts_fs x f hbad
  intro r f hr
  refine ⟨f, r.data, rfl, hr.1, ?_, ?_, ?_⟩
  · refine h.write hg fun g hg' => Function.update_of_ne (fun heq => hg' v hv e he heq.symm) _ _
  · intro hok
    have hret : r.ret = (min (filesz - i) PGSIZE : Nat) := of_decide_eq_true hok
    refine ⟨?_, fun b hb => (hr.2 b hb).1 hret⟩
    have := r.honest (by omega)
    omega
  · intro hshort hall
    obtain ⟨b, hb, hle⟩ := hfine hall
    exact of_decide_eq_false hshort ((hr.2 b hb).2.2 (by omega))

theorem loadPages_wp (hserve : Serves devsw ip P P' c fine) (hg : s₀.Good k) (v offset filesz : Nat)
    {j n : Nat} (hn : j + n = pages filesz) (hin : v * PGSIZE + filesz ≤ sz) (hsz : sz ≤ KERNBASE)
    (hfine : fine → ∃ b, c = some b ∧ offset + filesz ≤ b.length) (h : Building s₀ d sz s.mem)
    (hP : P s.fs)
    (hfill : ∀ b, c = some b → offset + min (j * PGSIZE) filesz < 2 ^ 32 ∧
      Filled d m₀ s.mem.mem (v * PGSIZE) (v * PGSIZE + min (j * PGSIZE) filesz)
        fun va => b.getD (offset + (va - v * PGSIZE)) 0) :
    (Exec.loadPages devsw ip d (v * PGSIZE) offset filesz ((List.range' j n).map (· * PGSIZE))).wp
      (fun ok t => (∃ f m, t = { s with fs := f, mem := m }) ∧ P t.fs ∧ Building s₀ d sz t.mem ∧
        (ok = true → ∀ b, c = some b → Filled d m₀ t.mem.mem (v * PGSIZE) (v * PGSIZE + filesz)
          fun va => b.getD (offset + (va - v * PGSIZE)) 0) ∧ (ok = false → ¬ fine))
      (Halts fine s₀) s := by
  induction n generalizing j s with
  | zero =>
    refine ⟨⟨s.fs, s.mem, rfl⟩, hP, h, fun _ b hb => ?_, fun hfalse => by cases hfalse⟩
    have hall := (hfill b hb).2
    rwa [Nat.min_eq_right (by simp only [pages, PGSIZE] at *; omega)] at hall
  | succ n ih =>
    have hj : j * PGSIZE < filesz := lt_pages_iff.mpr (by omega)
    have hv : v + j < 2 ^ 19 := by
      simp only [PGSIZE, KERNBASE] at *
      omega
    obtain ⟨e, he⟩ := Option.isSome_iff_exists.mp ((h.present (v + j) hv).mpr (by
      simp only [pages, PGSIZE] at *
      omega))
    rw [List.range'_succ, List.map_cons]
    unfold Exec.loadPages
    rw [wp_bind]
    refine wp_imp (loadPage_wp hserve hg h hP hv (by rw [Nat.add_mul]) he hj hfine) ?_
    rintro ok t ⟨f, data, rfl, hPf, hnew, hdata, hbad⟩
    cases ok with
    | false => exact ⟨⟨f, _, rfl⟩, hPf, hnew, (fun hfalse => by cases hfalse), hbad⟩
    | true =>
      obtain ⟨hlen, hbytes⟩ := hdata rfl
      refine wp_imp (ih (j := j + 1) (by omega) hnew hPf ?_) ?_
      · intro b hb
        obtain ⟨hoff, hfilled⟩ := hfill b hb
        obtain ⟨hle, hd⟩ := hbytes b hb
        have hsmall := hserve.small b hb
        rw [Nat.min_eq_left (Nat.le_of_lt hj)] at hoff hfilled
        rw [Nat.mod_eq_of_lt hoff] at hle hd
        have hnext : min ((j + 1) * PGSIZE) filesz = j * PGSIZE + data.length := by
          rw [hlen]
          simp only [PGSIZE] at *
          omega
        refine ⟨by omega, ?_⟩
        rw [hnext, ← Nat.add_assoc, ← Nat.add_mul]
        rw [← Nat.add_mul] at hfilled
        have hlo : v * PGSIZE ≤ (v + j) * PGSIZE := Nat.mul_le_mul_right _ (Nat.le_add_right v j)
        refine hfilled.page hlo he
          (fun w hw e' he' heq => h.separate hg hw hv he' he heq) (by omega) fun o ho => ?_
        have hindex : offset + ((v + j) * PGSIZE + o - v * PGSIZE) = offset + j * PGSIZE + o := by
          simp only [PGSIZE]
          omega
        have hdo : data[o]? = b[offset + j * PGSIZE + o]? := by
          rw [hd, List.getElem?_take_of_lt (by omega), List.getElem?_drop]
        rw [hindex, List.getD_eq_getElem?_getD, ← hdo, List.getElem?_eq_getElem ho, Option.getD_some]
      · rintro ok t ⟨⟨f', m', rfl⟩, hrest⟩
        exact ⟨⟨f', m', rfl⟩, hrest⟩

/-- The fields of a program header that exec uses. -/
structure Proghdr where
  type : Nat
  off : Nat
  vaddr : Nat
  filesz : Nat
  memsz : Nat

namespace Proghdr

def decode (b : List Byte) : Proghdr :=
  ⟨word32 b 0, word32 b 4, word32 b 8, word32 b 16, word32 b 20⟩

/-- The part of the segment that comes from the file covers the address. -/
def covers (ph : Proghdr) (va : Nat) : Bool :=
  ph.type = ELF_PROG_LOAD ∧ ph.vaddr ≤ va ∧ va < ph.vaddr + ph.filesz

/-- The segment can be loaded from the file b. -/
structure Fits (s : Kmem) (b : List Byte) (ph : Proghdr) : Prop where
  file : ph.filesz ≤ ph.memsz
  inside : ph.off + ph.filesz ≤ b.length
  aligned : ph.vaddr % PGSIZE = 0
  pos : 0 < ph.vaddr + ph.memsz
  room : s.Room (pages (ph.vaddr + ph.memsz))

end Proghdr

/-- The byte that the last segment to cover the address has for it, or 0; b is the file. -/
def imageByte (b : List Byte) (phs : List Proghdr) (va : Nat) : Byte :=
  match phs.reverse.find? (·.covers va) with
  | none => 0
  | some ph => b.getD (ph.off + (va - ph.vaddr)) 0

/-- The largest vaddr + memsz of a segment. -/
def imageEnd (phs : List Proghdr) : Nat :=
  ((phs.filter fun ph => ph.type = ELF_PROG_LOAD).map fun ph => ph.vaddr + ph.memsz).foldl max 0

variable {b : List Byte} {phs : List Proghdr} {ph : Proghdr}

theorem imageByte_snoc (va : Nat) : imageByte b (phs ++ [ph]) va =
    if ph.covers va then b.getD (ph.off + (va - ph.vaddr)) 0 else imageByte b phs va := by
  unfold imageByte
  rw [List.reverse_append, List.reverse_singleton, List.singleton_append, List.find?_cons]
  cases ph.covers va <;> rfl

theorem imageEnd_snoc (h : ph.type = ELF_PROG_LOAD) :
    imageEnd (phs ++ [ph]) = max (imageEnd phs) (ph.vaddr + ph.memsz) := by
  simp [imageEnd, h]

theorem imageEnd_skip (h : ph.type ≠ ELF_PROG_LOAD) : imageEnd (phs ++ [ph]) = imageEnd phs := by
  simp [imageEnd, h]

theorem word32_lt (b : List Byte) (off : Nat) : word32 b off < 2 ^ 32 := BitVec.isLt _

/-- The segments of phs are loaded, in this order. -/
structure Loaded (b : List Byte) (phs : List Proghdr) (d : PageDir) (m : Nat → Block PGSIZE)
    (sz : Nat) : Prop where
  size : sz = imageEnd phs
  below : ∀ ph ∈ phs, ∀ va, ph.covers va = true → va < sz
  bytes : ∀ va < pages sz * PGSIZE, d.byteAt m va = some (imageByte b phs va)

theorem Loaded.nil : Loaded b [] d m 0 :=
  ⟨rfl, fun _ h => absurd h List.not_mem_nil, fun va hva => by
    have hzero : pages 0 * PGSIZE = 0 := by decide
    omega⟩

theorem imageByte_above {va : Nat} (h : ∀ ph ∈ phs, ph.covers va = false) :
    imageByte b phs va = 0 := by
  unfold imageByte
  rw [List.find?_eq_none.mpr fun ph hph => by rw [h ph (List.mem_reverse.mp hph)]; simp]

theorem Loaded.skip (h : Loaded b phs d m sz) (hph : ph.type ≠ ELF_PROG_LOAD) :
    Loaded b (phs ++ [ph]) d m sz := by
  have hnot : ∀ va, ph.covers va = false := fun va => by simp [Proghdr.covers, hph]
  refine ⟨by rw [imageEnd_skip hph]; exact h.size, ?_, ?_⟩
  · intro x hx va hcov
    rcases List.mem_append.mp hx with hold | hnew
    · exact h.below x hold va hcov
    · rw [List.mem_singleton.mp hnew, hnot va] at hcov
      cases hcov
  · intro va hva
    rw [imageByte_snoc, hnot va, if_neg (by simp)]
    exact h.bytes va hva

theorem Loaded.grow {s t : Kmem} {sz' : Nat} (h : Loaded b phs d s.mem sz)
    (hgrown : Grown d s sz d' t) (hnew : NewDir s₀ d' sz' t) (hsz : pages sz' ≤ 2 ^ 19) :
    ∀ va < pages sz' * PGSIZE, d'.byteAt t.mem va = some (imageByte b phs va) := by
  intro va hva
  have hdiv : ∀ n, va / PGSIZE < n ↔ va < n * PGSIZE := fun n => Nat.div_lt_iff_lt_mul (by decide)
  have hpage := (hdiv _).mpr hva
  by_cases hold : va / PGSIZE < pages sz
  · rw [← h.bytes va ((hdiv _).mp hold)]
    exact (hgrown.old _ hold (by omega)).byteAt
  · obtain ⟨e, he⟩ := Option.isSome_iff_exists.mp
      ((hnew.present (va / PGSIZE) (by omega)).mpr hpage)
    have hzero := (hgrown.fresh _ (by omega) (by omega) e he).2
    unfold PageDir.byteAt
    rw [he, Option.map_some, hzero, byte_zero, imageByte_above fun ph hph => ?_]
    by_contra hcov
    have hlt := h.below ph hph va (by simpa using hcov)
    rw [hdiv] at hold
    simp only [pages, PGSIZE] at hold
    omega

theorem Loaded.snoc {sz' : Nat} (h : Loaded b phs d m sz) (hph : ph.type = ELF_PROG_LOAD)
    (hsz : sz' = max sz (ph.vaddr + ph.memsz)) (hfile : ph.filesz ≤ ph.memsz)
    (hmax : sz' < KERNBASE) {m' : Nat → Block PGSIZE}
    (hold : ∀ va < pages sz' * PGSIZE, d'.byteAt m₀ va = some (imageByte b phs va))
    (hfill : Filled d' m₀ m' ph.vaddr (ph.vaddr + ph.filesz) fun va =>
      b.getD (ph.off + (va - ph.vaddr)) 0) :
    Loaded b (phs ++ [ph]) d' m' sz' := by
  refine ⟨?_, ?_, ?_⟩
  · rw [imageEnd_snoc hph, ← h.size]
    exact hsz
  · intro x hx va hcov
    rcases List.mem_append.mp hx with hin | hnew
    · have := h.below x hin va hcov
      omega
    · rw [List.mem_singleton.mp hnew] at hcov
      have := of_decide_eq_true hcov
      omega
  · intro va hva
    have hva31 : va < 2 ^ 31 := by
      have := pages_le (Nat.le_of_lt hmax)
      simp only [PGSIZE] at *
      omega
    rw [hfill va hva31, imageByte_snoc, hold va hva]
    have hiff : (ph.vaddr ≤ va ∧ va < ph.vaddr + ph.filesz) ↔ ph.covers va = true := by
      simp [Proghdr.covers, hph]
    by_cases hcov : ph.covers va = true
    · rw [if_pos (hiff.mpr hcov), if_pos hcov]
    · rw [if_neg (hiff.not.mpr hcov), if_neg hcov]

theorem Building.allocuvm_wp {s : Kmem} (hg : s₀.Good k) (h : Building s₀ d sz s) (newsz : Nat) :
    (Xv6.allocuvm k d sz newsz).wp
      (fun x t => x.2 = 0 ∧ NewDir s₀ x.1 sz t ∧ ¬ s₀.Room (pages newsz) ∨
        x.2 = max sz newsz ∧ newsz < KERNBASE ∧ Building s₀ x.1 x.2 t ∧ Grown d s sz x.1 t)
      (fun _ _ => False) s := by
  obtain ⟨d', r, t, hrun, hend⟩ := h.allocuvm hg newsz
  rw [wp_ok hrun]
  exact hend

/-- Where the loop over the program headers stands: nothing but the file system and the memory has
changed, and the directory is that of a new image, which has the segments of phs if the loop goes
on. -/
structure Loading (fine : Prop) (s₀ : Kmem) (P : Fs → Prop) (c : Option (List Byte)) (s : ExecState)
    (phs : List Byte → List Proghdr) (x : PageDir × Option Nat) (t : ExecState) : Prop where
  frame : ∃ f m, t = { s with fs := f, mem := m }
  file : P t.fs
  dir : ∃ n, NewDir s₀ x.1 n t.mem
  image : ∀ sz, x.2 = some sz → sz < KERNBASE ∧ Building s₀ x.1 sz t.mem ∧
    ∀ b, c = some b → Loaded b (phs b) x.1 t.mem.mem sz
  bad : x.2 = none → ¬ fine

variable {phs : List Byte → List Proghdr}

theorem Loading.failed {f : Fs} {m : Kmem} {n : Nat} (hP : P f) (h : NewDir s₀ d n m)
    (hbad : ¬ fine) :
    Loading fine s₀ P c s phs (d, none) { s with fs := f, mem := m } :=
  ⟨⟨f, m, rfl⟩, hP, ⟨n, h⟩, (fun _ heq => by cases heq), fun _ => hbad⟩

theorem loadSegment_wp (hserve : Serves devsw ip P P' c fine) (hg : s₀.Good k)
    (h : Building s₀ d sz s.mem) (hsz : sz < KERNBASE) (hP : P s.fs) {ph : List Byte}
    (htype : word32 ph 0 = ELF_PROG_LOAD) (hl : ∀ b, c = some b → Loaded b (phs b) d s.mem.mem sz)
    (hfine : fine → ∃ b, c = some b ∧ (Proghdr.decode ph).Fits s₀ b) :
    (Exec.loadSegment k devsw ip d sz ph).wp
      (Loading fine s₀ P c s fun b => phs b ++ [Proghdr.decode ph])
      (Halts fine s₀) s := by
  have hv32 := word32_lt ph 8
  have ho32 := word32_lt ph 4
  have hm32 := word32_lt ph 20
  have hfits : fine → word32 ph 16 ≤ word32 ph 20 ∧ word32 ph 8 % PGSIZE = 0 ∧
      0 < word32 ph 8 + word32 ph 20 ∧
      s₀.Room (pages (word32 ph 8 + word32 ph 20)) ∧ word32 ph 8 + word32 ph 20 < KERNBASE := by
    intro hall
    obtain ⟨b, _, hfits⟩ := hfine hall
    refine ⟨hfits.file, hfits.aligned, hfits.pos, hfits.room, ?_⟩
    have hsmall : pages (word32 ph 8 + word32 ph 20) * PGSIZE < KERNBASE := hfits.room.small
    simp only [pages, PGSIZE] at hsmall
    omega
  have hk32 : KERNBASE < 2 ^ 32 := by decide
  unfold Exec.loadSegment
  dsimp only
  refine wp_ite (fun hlt => .failed hP h.toNewDir fun hall => ?_) fun hfile =>
    wp_ite (fun hlt => .failed hP h.toNewDir fun hall => ?_) fun hover => ?_
  · have := (hfits hall).1
    omega
  · have := (hfits hall).2.2.2.2
    omega
  have hwrap : (word32 ph 8 + word32 ph 20) % 2 ^ 32 = word32 ph 8 + word32 ph 20 := by omega
  rw [hwrap, wp_bind, Exec.wp_onVm]
  refine wp_mono (h.allocuvm_wp hg _) ?_ fun _ _ hfalse => hfalse.elim
  rintro ⟨d', r⟩ t hend
  dsimp only at hend ⊢
  refine wp_ite (fun hr0 => ?_) fun hr0 => ?_
  · rcases hend with ⟨_, hnew, hfull⟩ | ⟨hr, _, hnew, _⟩
    · exact .failed hP hnew fun hall => hfull (hfits hall).2.2.2.1
    · refine .failed hP hnew.toNewDir fun hall => ?_
      have := (hfits hall).2.2.1
      omega
  obtain ⟨hr, hnewsz, hnew, hgrown⟩ := hend.resolve_left fun hleft => hr0 hleft.1
  have hrk : r < KERNBASE := by omega
  refine wp_ite (fun hodd => .failed hP hnew.toNewDir fun hall => hodd (hfits hall).2.1)
    fun halign => ?_
  rw [wp_bind]
  unfold Exec.loaduvm
  rw [if_neg halign, List.range_eq_range']
  have hvaddr : word32 ph 8 = word32 ph 8 / PGSIZE * PGSIZE := by
    simp only [PGSIZE] at *
    omega
  have hstart : ∀ b, c = some b → word32 ph 4 + min (0 * PGSIZE) (word32 ph 16) < 2 ^ 32 ∧
      Filled d' t.mem t.mem (word32 ph 8 / PGSIZE * PGSIZE)
        (word32 ph 8 / PGSIZE * PGSIZE + min (0 * PGSIZE) (word32 ph 16))
        fun va => b.getD (word32 ph 4 + (va - word32 ph 8 / PGSIZE * PGSIZE)) 0 := by
    intro b _
    rw [Nat.zero_mul, Nat.zero_min, Nat.add_zero, Nat.add_zero]
    exact ⟨ho32, .refl⟩
  have hload := loadPages_wp (s := { s with mem := t }) hserve hg _ _ _
    (Nat.zero_add (pages (word32 ph 16)))
    (by rw [← hvaddr]; omega) (Nat.le_of_lt hrk) (fun hall => by
      obtain ⟨b, hb, hfits⟩ := hfine hall
      exact ⟨b, hb, hfits.inside⟩) hnew hP hstart
  rw [← hvaddr] at hload
  refine wp_imp hload ?_
  rintro ok u ⟨⟨f, m, rfl⟩, hPf, hnew', hfilled, hbad⟩
  cases ok with
  | false => exact .failed hPf hnew'.toNewDir (hbad rfl)
  | true =>
    refine ⟨⟨f, m, rfl⟩, hPf, ⟨r, hnew'.toNewDir⟩, fun sz' heq => ?_, fun hnone => by cases hnone⟩
    cases heq
    refine ⟨hrk, hnew', fun b hb => ?_⟩
    have hloaded := hl b hb
    exact hloaded.snoc htype hr (Nat.le_of_not_lt hfile) hrk
      (hloaded.grow hgrown hnew.toNewDir (pages_le (Nat.le_of_lt hrk))) (hfilled rfl b hb)

/-- The headers that stand in the file at the given offsets. -/
def phdrsAt (b : List Byte) (offs : List Nat) : List Proghdr :=
  offs.map fun off => .decode ((b.drop off).take 32)

/-- The headers at the offsets are there, and their segments can be loaded. -/
def Loadable (s : Kmem) (b : List Byte) (offs : List Nat) : Prop :=
  ∀ off ∈ offs, off + 32 ≤ b.length ∧
    ((Proghdr.decode ((b.drop off).take 32)).type = ELF_PROG_LOAD →
    (Proghdr.decode ((b.drop off).take 32)).Fits s b)

theorem Proghdr.decode_overwrite {buf data : List Byte} (h : data.length = 32) :
    Proghdr.decode (overwrite buf data) = Proghdr.decode data := by
  unfold Proghdr.decode overwrite
  rw [word32_append (by omega), word32_append (by omega), word32_append (by omega),
    word32_append (by omega), word32_append (by omega)]

theorem Loading.after {f : Fs} {m : Kmem} {x : PageDir × Option Nat} {t : ExecState}
    (h : Loading fine s₀ P c { s with fs := f, mem := m } phs x t) :
    Loading fine s₀ P c s phs x t := by
  obtain ⟨⟨f', m', rfl⟩, hfile, hdir, himage, hbad⟩ := h
  exact ⟨⟨f', m', rfl⟩, hfile, hdir, himage, hbad⟩

theorem Loading.congr {phs' : List Byte → List Proghdr} {x : PageDir × Option Nat} {t : ExecState}
    (h : Loading fine s₀ P c s phs x t) (heq : ∀ b, c = some b → phs b = phs' b) :
    Loading fine s₀ P c s phs' x t := by
  refine ⟨h.frame, h.file, h.dir, fun sz hsz => ?_, h.bad⟩
  obtain ⟨hmax, hnew, hl⟩ := h.image sz hsz
  exact ⟨hmax, hnew, fun b hb => heq b hb ▸ hl b hb⟩

theorem segments_wp (hserve : Serves devsw ip P P' c fine) (hg : s₀.Good k)
    (h : Building s₀ d sz s.mem) (hsz : sz < KERNBASE) (hP : P s.fs) (ph : List Byte)
    (offs : List Nat) (hl : ∀ b, c = some b → Loaded b (phs b) d s.mem.mem sz)
    (hfine : fine → ∃ b, c = some b ∧ Loadable s₀ b offs) :
    (Exec.segments k devsw ip d sz ph offs).wp
      (Loading fine s₀ P c s fun b => phs b ++ phdrsAt b offs)
      (Halts fine s₀) s := by
  induction offs generalizing d sz s ph phs with
  | nil =>
    refine ⟨⟨s.fs, s.mem, rfl⟩, hP, ⟨sz, h.toNewDir⟩, fun sz' heq => ?_,
      fun hnone => by cases hnone⟩
    cases heq
    refine ⟨hsz, h, fun b hb => ?_⟩
    rw [phdrsAt, List.map_nil, List.append_nil]
    exact hl b hb
  | cons off offs ih =>
    unfold Exec.segments
    rw [wp_bind, Exec.wp_onFs]
    refine wp_mono (hserve.read s.fs off 32 hP) ?_ fun x f hbad => h.toNewDir.halts_fs x f hbad
    rintro r f ⟨hPf, hc⟩
    dsimp only
    refine wp_ite (fun hshort => .failed hPf h.toNewDir fun hall => ?_) fun hret => ?_
    · obtain ⟨b, hb, hload⟩ := hfine hall
      exact hshort ((hc b hb).2.2 (hload off List.mem_cons_self).1)
    rw [not_not] at hret
    have hlen : r.data.length = 32 := by
      have := r.honest (by omega)
      omega
    have hdecode : ∀ b, c = some b →
        Proghdr.decode ((b.drop off).take 32) = Proghdr.decode (overwrite ph r.data) := by
      intro b hb
      rw [Proghdr.decode_overwrite hlen, ((hc b hb).1 hret).2]
    have hphs : ∀ b, c = some b →
      phs b ++ [Proghdr.decode (overwrite ph r.data)] ++ phdrsAt b offs =
        phs b ++ phdrsAt b (off :: offs) := by
      intro b hb
      rw [phdrsAt, phdrsAt, List.map_cons, hdecode b hb, List.append_assoc]
      rfl
    have hrest : fine → ∃ b, c = some b ∧ Loadable s₀ b offs := by
      intro hall
      obtain ⟨b, hb, hload⟩ := hfine hall
      exact ⟨b, hb, fun off' hoff' => hload off' (List.mem_cons_of_mem off hoff')⟩
    refine wp_ite (fun hskip => ?_) fun hload => ?_
    · have hl' : ∀ b, c = some b →
        Loaded b (phs b ++ [Proghdr.decode (overwrite ph r.data)]) d s.mem.mem sz :=
        fun b hb => (hl b hb).skip (by exact hskip)
      exact wp_imp (ih (s := { s with fs := f }) h hsz hPf (overwrite ph r.data) hl' hrest)
        fun x t hx => hx.after.congr hphs
    · rw [not_not] at hload
      rw [wp_bind]
      have hfits : fine → ∃ b, c = some b ∧ (Proghdr.decode (overwrite ph r.data)).Fits s₀ b := by
        intro hall
        obtain ⟨b, hb, hall⟩ := hfine hall
        refine ⟨b, hb, ?_⟩
        rw [← hdecode b hb]
        exact (hall off List.mem_cons_self).2 (by rw [hdecode b hb]; exact hload)
      refine wp_imp (loadSegment_wp (s := { s with fs := f }) hserve hg h hsz hPf hload hl hfits) ?_
      rintro ⟨d', o⟩ t ⟨⟨f', m', rfl⟩, hfile, ⟨n, hdir⟩, himage, hbad⟩
      cases o with
      | none => exact .failed hfile hdir (hbad rfl)
      | some sz' =>
        obtain ⟨hsz', hnew, hl'⟩ := himage sz' rfl
        exact wp_imp (ih hnew hsz' hfile _ hl' hrest) fun x t hx => hx.after.after.congr hphs

end Xv6
