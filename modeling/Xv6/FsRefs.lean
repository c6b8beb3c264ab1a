import Xv6.FsCalls

namespace Xv6

open Bytes

/-- One more reference at an index. -/
def plus {ι : Type} [DecidableEq ι] (R : ι → Nat) (i : ι) : ι → Nat := Function.update R i (R i + 1)

def plusOpt (R : InodeSlot → Nat) : Option InodeSlot → InodeSlot → Nat
  | none => R
  | some ip => plus R ip

def lockAt (K : InodeSlot → Bool) (ip : InodeSlot) : InodeSlot → Bool := Function.update K ip true

/-- The counts and sleep-locks of the inode cache, which has one entry in use for an inode at most.
-/
structure Fs.Refs (s : Fs) (R : InodeSlot → Nat) (K : InodeSlot → Bool) : Prop where
  ref : ∀ ip, (s.inode ip).ref = R ip
  locked : ∀ ip, (s.inode ip).locked = K ip
  unique : ∀ ip jp, 0 < R ip → 0 < R jp → (s.inode ip).inum = (s.inode jp).inum → ip = jp

/-- A computation that ends well leaves the counts and locks as they were. -/
def KeepsRefs {α : Type} (x : FsM α) : Prop :=
  ∀ s R K, s.Refs R K → x.wp (fun _ t => t.Refs R K) (fun _ _ => True) s

variable {α β : Type} {x : FsM α} {s t : Fs} {R : InodeSlot → Nat} {K : InodeSlot → Bool}
  {ip jp : InodeSlot}

section

variable {ι : Type} [DecidableEq ι]

theorem plus_apply (R : ι → Nat) (i k : ι) : plus R i k = R k + if k = i then 1 else 0 := by
  by_cases h : k = i
  · subst h
    simp [plus]
  · simp [plus, h]

theorem plus_comm (R : ι → Nat) (i j : ι) : plus (plus R i) j = plus (plus R j) i := by
  funext k
  simp only [plus_apply]
  omega

theorem le_plus (R : ι → Nat) (i j : ι) : R j ≤ plus R i j := by
  rw [plus_apply]
  omega

theorem plus_pos (R : ι → Nat) (i : ι) : 0 < plus R i i := by simp [plus]

theorem plus_add (B R : ι → Nat) (i : ι) :
    plus (fun k => B k + R k) i = fun k => B k + plus R i k := by
  funext k
  simp only [plus_apply]
  omega

end

theorem lockAt_comm (K : InodeSlot → Bool) (ip jp : InodeSlot) :
    lockAt (lockAt K ip) jp = lockAt (lockAt K jp) ip := by
  by_cases h : ip = jp
  · rw [h]
  · exact Function.update_comm h ..

theorem keeps_pure (a : α) : KeepsRefs (pure a) := fun _ _ _ h => h

theorem keeps_throw (e : FsHalt) : KeepsRefs (throw e : FsM α) := fun _ _ _ _ => trivial

theorem keeps_get : KeepsRefs (get : FsM Fs) := fun _ _ _ h => h

theorem KeepsRefs.bind {f : α → FsM β} (hx : KeepsRefs x) (hf : ∀ a, KeepsRefs (f a)) :
    KeepsRefs (x >>= f) := by
  intro s R K h
  rw [Prog.wp_bind]
  exact Prog.wp_imp (hx s R K h) fun a t ht => hf a t R K ht

theorem KeepsRefs.map {f : α → β} (hx : KeepsRefs x) : KeepsRefs (f <$> x) := by
  intro s R K h
  rw [Prog.wp_map]
  exact hx s R K h

theorem KeepsRefs.ite {c : Prop} [Decidable c] {y : FsM α} (hx : KeepsRefs x) (hy : KeepsRefs y) :
    KeepsRefs (if c then x else y) := by
  split
  · exact hx
  · exact hy

theorem keeps_forM {f : α → FsM PUnit} {l : List α} (hf : ∀ a, KeepsRefs (f a)) :
    KeepsRefs (forM l f) := by
  intro s R K h
  exact Prog.wp_forM (fun _ t => t.Refs R K) h fun _ b _ t _ ht => hf b t R K ht

theorem Fs.Refs.frame (h : s.Refs R K) (href : ∀ ip, (t.inode ip).ref = (s.inode ip).ref)
    (hlock : ∀ ip, (t.inode ip).locked = (s.inode ip).locked)
    (hinum : ∀ ip, (t.inode ip).inum = (s.inode ip).inum) :
    t.Refs R K := by
  refine ⟨fun ip => (href ip).trans (h.ref ip), fun ip => (hlock ip).trans (h.locked ip),
    fun ip jp hi hj he => ?_⟩
  rw [hinum, hinum] at he
  exact h.unique ip jp hi hj he

theorem Fs.Refs.setInode (h : s.Refs R K) (ip : InodeSlot) {v : Inode}
    (href : v.ref = (s.inode ip).ref) (hlock : v.locked = (s.inode ip).locked)
    (hinum : v.inum = (s.inode ip).inum) :
    { s with inode := Function.update s.inode ip v }.Refs R K := by
  have hcase : ∀ {γ : Type} (g : Inode → γ), g v = g (s.inode ip) →
      ∀ k, g (Function.update s.inode ip v k) = g (s.inode k) := by
    intro γ g hg k
    by_cases hk : k = ip
    · subst hk
      simpa using hg
    · simp [Function.update_of_ne hk]
  exact h.frame (hcase Inode.ref href) (hcase Inode.locked hlock) (hcase Inode.inum hinum)

theorem keeps_setDin (ip : InodeSlot) (d : Dinode) : KeepsRefs (setDin ip d) :=
  fun _ _ _ h => h.setInode _ rfl rfl rfl

theorem keeps_readBlock (b : Nat) : KeepsRefs (readBlock b) :=
  keeps_get.bind fun _ => .ite (keeps_throw _) (keeps_pure _)

theorem keeps_logBlock (b : Nat) (data : DiskBlock) : KeepsRefs (logBlock b data) :=
  fun _ _ _ h => h.frame (fun _ => rfl) (fun _ => rfl) fun _ => rfl

theorem keeps_readsb : KeepsRefs readsb :=
  (keeps_readBlock 1).bind fun _ _ _ _ h => h.frame (fun _ => rfl) (fun _ => rfl) fun _ => rfl

theorem keeps_bzero (b : Nat) : KeepsRefs (bzero b) :=
  (keeps_readBlock b).bind fun _ => keeps_logBlock b _

theorem keeps_ballocScan (bs : List Nat) : KeepsRefs (ballocScan bs) := by
  induction bs with
  | nil => exact keeps_throw _
  | cons b bs ih =>
    refine keeps_get.bind fun s => (keeps_readBlock _).bind fun data => ?_
    split
    · exact (keeps_logBlock _ _).bind fun _ => (keeps_bzero _).bind fun _ => keeps_pure _
    · exact ih

theorem keeps_balloc : KeepsRefs balloc := keeps_get.bind fun _ => keeps_ballocScan _

theorem keeps_bfree (b : Nat) : KeepsRefs (bfree b) :=
  keeps_readsb.bind fun _ => keeps_get.bind fun _ => (keeps_readBlock _).bind fun _ =>
    .ite (keeps_throw _) (keeps_logBlock _ _)

theorem keeps_iupdate (ip : InodeSlot) : KeepsRefs (iupdate ip) :=
  keeps_get.bind fun _ => (keeps_readBlock _).bind fun _ => keeps_logBlock _ _

theorem keeps_bmapSlot (ip : InodeSlot) (k : Fin (NDIRECT + 1)) : KeepsRefs (bmapSlot ip k) :=
  keeps_get.bind fun _ => .ite
    (keeps_balloc.bind fun _ => keeps_get.bind fun _ => (keeps_setDin _ _).bind fun _ =>
      keeps_pure _) (keeps_pure _)

theorem keeps_bmap (ip : InodeSlot) (bn : Nat) : KeepsRefs (bmap ip bn) := by
  unfold bmap
  split
  · exact keeps_bmapSlot _ _
  · exact .ite ((keeps_bmapSlot _ _).bind fun _ => (keeps_readBlock _).bind fun _ => .ite
      (keeps_balloc.bind fun _ => (keeps_logBlock _ _).bind fun _ => keeps_pure _)
        (keeps_pure _)) (keeps_throw _)

theorem keeps_itruncDirect (ip : InodeSlot) (k : Fin NDIRECT) : KeepsRefs (itruncDirect ip k) :=
  keeps_get.bind fun _ => .ite
    ((keeps_bfree _).bind fun _ => keeps_get.bind fun _ => keeps_setDin _ _) (keeps_pure _)

theorem keeps_itruncIndirect (ip : InodeSlot) : KeepsRefs (itruncIndirect ip) := by
  refine keeps_get.bind fun _ => .ite ((keeps_readBlock _).bind fun data => ?_) (keeps_pure _)
  refine (keeps_forM fun j => ?_).bind fun _ => (keeps_bfree _).bind fun _ =>
    keeps_get.bind fun _ => keeps_setDin _ _
  exact .ite (keeps_bfree _) (keeps_pure _)

theorem keeps_itrunc (ip : InodeSlot) : KeepsRefs (itrunc ip) :=
  (keeps_forM fun k => keeps_itruncDirect ip k).bind fun _ =>
    (keeps_itruncIndirect ip).bind fun _ =>
    keeps_get.bind fun _ => (keeps_setDin _ _).bind fun _ => keeps_iupdate ip

theorem Fs.Refs.setRef (h : s.Refs R K) (ip : InodeSlot) {v : Inode}
    (hlock : v.locked = (s.inode ip).locked)
    (hne : 0 < v.ref → ∀ jp, jp ≠ ip → 0 < R jp → (s.inode jp).inum ≠ v.inum) :
    { s with inode := Function.update s.inode ip v }.Refs (Function.update R ip v.ref) K where
  ref k := by
    by_cases hk : k = ip
    · subst hk
      simp
    · simpa [Function.update_of_ne hk] using h.ref k
  locked k := by
    by_cases hk : k = ip
    · subst hk
      simpa [hlock] using h.locked k
    · simpa [Function.update_of_ne hk] using h.locked k
  unique k j hk hj he := by
    by_cases hki : k = ip
    · subst hki
      by_contra hjk
      simp only [Function.update_self, Function.update_of_ne (Ne.symm hjk)] at hk hj he
      exact hne hk j (Ne.symm hjk) hj he.symm
    · by_cases hji : j = ip
      · subst hji
        simp only [Function.update_self, Function.update_of_ne hki] at hk hj he
        exact absurd he (hne hj k hki hk)
      · simp only [Function.update_of_ne hki, Function.update_of_ne hji] at hk hj he
        exact h.unique k j hk hj he

theorem idup_refs (h : s.Refs R K) (hp : 0 < R ip) :
    (idup ip).wp (fun jp t => jp = ip ∧ t.Refs (plus R ip) K) (fun _ _ => True) s := by
  have hset := h.setRef ip (v := { s.inode ip with ref := (s.inode ip).ref + 1 }) rfl
    fun _ jp hj hjr he => hj (h.unique jp ip hjr hp he)
  simp only [h.ref ip] at hset
  simp only [idup, setInode, Prog.wp_bind, Prog.wp_get, Prog.wp_modify, Prog.wp_pure, h.ref ip,
    true_and]
  exact hset

theorem iget_refs {inum : Nat} (h : s.Refs R K) :
    (iget inum).wp (fun ip t => t.Refs (plus R ip) K) (fun _ _ => True) s := by
  simp only [iget, Prog.wp_bind, Prog.wp_get]
  split
  next ip hfind =>
    have hip : 0 < (s.inode ip).ref ∧ (s.inode ip).inum = inum := by
      simpa using List.find?_some hfind
    have hset := h.setRef ip (v := { s.inode ip with ref := (s.inode ip).ref + 1 }) rfl
      fun _ jp hj hjr he => hj (h.unique jp ip hjr (h.ref ip ▸ hip.1) he)
    simp only [h.ref ip] at hset
    simp only [setInode, Prog.wp_bind, Prog.wp_modify, Prog.wp_pure, h.ref ip]
    exact hset
  next hfind =>
    split
    next ip hempty =>
      have hzero : (s.inode ip).ref = 0 := by simpa using List.find?_some hempty
      have hnone : ∀ jp, 0 < R jp → (s.inode jp).inum ≠ inum := by
        intro jp hj he
        have hno := List.find?_eq_none.mp hfind jp (by simp)
        simp only [decide_eq_true_eq, not_and] at hno
        exact hno (by rw [h.ref jp]; exact hj) he
      have hset := h.setRef ip (v := { s.inode ip with inum := inum, ref := 1, valid := false }) rfl
        fun _ jp _ hj => hnone jp hj
      have hplus : plus R ip = Function.update R ip 1 := by rw [plus, ← h.ref ip, hzero]
      simp only [setInode, Prog.wp_bind, Prog.wp_modify, Prog.wp_pure, hplus]
      exact hset
    next => trivial

theorem Fs.Refs.drop (h : s.Refs (plus R ip) K) :
    { s with inode := Function.update s.inode ip { s.inode ip with ref := (s.inode ip).ref - 1 }
      }.Refs R K := by
  have hset := h.setRef ip (v := { s.inode ip with ref := (s.inode ip).ref - 1 }) rfl
    fun _ jp hj hjr he => hj (h.unique jp ip hjr (plus_pos R ip) he)
  have hback : Function.update (plus R ip) ip ((s.inode ip).ref - 1) = R := by
    rw [h.ref ip, plus, Function.update_idem, Function.update_self, Nat.add_sub_cancel,
      Function.update_eq_self]
  simp only [hback] at hset
  exact hset

theorem iput_refs (h : s.Refs (plus R ip) K) :
    (iput ip).wp (fun _ t => t.Refs R K) (fun _ _ => True) s := by
  simp only [iput, Prog.wp_bind, Prog.wp_get]
  refine Prog.wp_ite (fun _ => ?_) fun _ => h.drop
  simp only [Prog.wp_bind, Prog.wp_get]
  refine Prog.wp_imp (keeps_itrunc ip s _ K h) fun _ s h =>
    Prog.wp_imp (keeps_setDin ip _ s _ K h) fun _ s h =>
    Prog.wp_imp (keeps_iupdate ip s _ K h) fun _ s h => ?_
  exact (h.setInode ip (v := { s.inode ip with valid := false }) rfl rfl rfl).drop

theorem Fs.Refs.setLock (h : s.Refs R K) (ip : InodeSlot) {v : Inode} {b : Bool}
    (href : v.ref = (s.inode ip).ref) (hlock : v.locked = b) (hinum : v.inum = (s.inode ip).inum) :
    { s with inode := Function.update s.inode ip v }.Refs R (Function.update K ip b) where
  ref k := by
    by_cases hk : k = ip
    · subst hk
      simpa [href] using h.ref k
    · simpa [Function.update_of_ne hk] using h.ref k
  locked k := by
    by_cases hk : k = ip
    · subst hk
      simpa using hlock
    · simpa [Function.update_of_ne hk] using h.locked k
  unique k j hk hj he := by
    have hsame : ∀ m, (Function.update s.inode ip v m).inum = (s.inode m).inum := by
      intro m
      by_cases hm : m = ip
      · subst hm
        simpa using hinum
      · simp [Function.update_of_ne hm]
    rw [hsame, hsame] at he
    exact h.unique k j hk hj he

theorem ilock_refs (h : s.Refs R K) :
    (ilock ip).wp (fun _ t => K ip = false ∧ 0 < R ip ∧ t.Refs R (lockAt K ip))
      (fun _ _ => True) s := by
  simp only [ilock, Prog.wp_bind, Prog.wp_get]
  refine Prog.wp_ite (fun _ => trivial) fun href => Prog.wp_ite (fun _ => trivial) fun hlock => ?_
  rw [h.ref ip] at href
  have hfree : K ip = false := by
    rw [← h.locked ip]
    simpa using hlock
  have hset := h.setLock ip (v := { s.inode ip with locked := true }) rfl rfl rfl
  simp only [Prog.wp_bind, setInode, Prog.wp_modify]
  refine Prog.wp_ite (fun _ => ?_) fun _ => ⟨hfree, by omega, hset⟩
  simp only [readBlock, Prog.wp_bind, Prog.wp_get]
  refine Prog.wp_ite (fun _ => trivial) fun _ => ?_
  simp only [Prog.wp_pure, Prog.wp_modify, Function.update_idem]
  exact Prog.wp_ite (fun _ => trivial) fun _ => ⟨hfree, by omega, h.setLock _ rfl rfl rfl⟩

theorem iunlock_any (h : s.Refs R K) :
    (iunlock ip).wp (fun _ t => K ip = true ∧ t.Refs R (Function.update K ip false))
      (fun _ _ => True) s := by
  simp only [iunlock, Prog.wp_bind, Prog.wp_get]
  refine Prog.wp_ite (fun _ => trivial) fun hno => ?_
  simp only [not_or, Bool.not_eq_false] at hno
  exact ⟨by rw [← h.locked ip, hno.1], h.setLock _ rfl rfl rfl⟩

theorem iunlock_refs (h : s.Refs R (lockAt K ip)) (hk : K ip = false) :
    (iunlock ip).wp (fun _ t => t.Refs R K) (fun _ _ => True) s := by
  have hback : Function.update (lockAt K ip) ip false = K := by
    rw [lockAt, Function.update_idem, ← hk, Function.update_eq_self]
  exact Prog.wp_imp (iunlock_any h) fun _ t ht => hback ▸ ht.2

theorem iunlockput_refs (h : s.Refs (plus R ip) (lockAt K ip)) (hk : K ip = false) :
    (iunlockput ip).wp (fun _ t => t.Refs R K) (fun _ _ => True) s := by
  simp only [iunlockput, Prog.wp_bind]
  exact Prog.wp_imp (iunlock_refs h hk) fun _ t ht => iput_refs ht

theorem relock_refs (h : s.Refs R (Function.update K ip false)) (hk : K ip = true) :
    (ilock ip).wp (fun _ t => t.Refs R K) (fun _ _ => True) s := by
  have hback : lockAt (Function.update K ip false) ip = K := by
    rw [lockAt, Function.update_idem, ← hk, Function.update_eq_self]
  exact Prog.wp_imp (ilock_refs h) fun _ t ht => hback ▸ ht.2.2

theorem keeps_consoleread (ip : InodeSlot) (n : Nat) : KeepsRefs (consoleread ip n) := by
  intro s R K h
  simp only [consoleread, Prog.wp_bind]
  refine Prog.wp_imp (iunlock_any h) fun _ t hpost => ?_
  obtain ⟨hk, ht⟩ := hpost
  simp only [Prog.wp_get]
  split
  · simp only [Prog.wp_bind, Prog.wp_set]
    exact relock_refs (ht.frame (fun _ => rfl) (fun _ => rfl) fun _ => rfl) hk
  · trivial

theorem keeps_consolewrite (ip : InodeSlot) (n : Nat) : KeepsRefs (consolewrite ip n) := by
  intro s R K h
  simp only [consolewrite, Prog.wp_bind]
  exact Prog.wp_imp (iunlock_any h) fun _ t hpost => relock_refs hpost.2 hpost.1

theorem keeps_readChunks (ip : InodeSlot) (cs : List (Nat × Nat)) :
    KeepsRefs (readChunks ip cs) := by
  induction cs with
  | nil => exact keeps_pure _
  | cons c cs ih =>
    exact (keeps_bmap ip _).bind fun _ => (keeps_readBlock _).bind fun _ => ih.bind fun _ =>
      keeps_pure _

theorem keeps_readi (ip : InodeSlot) (off n : Nat) : KeepsRefs (readi ip off n) :=
  keeps_get.bind fun _ => .ite (.ite (keeps_consoleread ip n).map (keeps_pure _))
    (.ite (keeps_pure _) (keeps_readChunks ip _).map)

theorem keeps_writeChunks (ip : InodeSlot) (cs : List (Nat × Nat)) (src : List Byte) :
    KeepsRefs (writeChunks ip cs src) := by
  induction cs generalizing src with
  | nil => exact keeps_pure _
  | cons c cs ih =>
    exact (keeps_bmap ip _).bind fun _ => (keeps_readBlock _).bind fun _ =>
      (keeps_logBlock _ _).bind fun _ => ih _

theorem keeps_writei (ip : InodeSlot) (src : List Byte) (off : Nat) :
    KeepsRefs (writei ip src off) := by
  refine keeps_get.bind fun _ => .ite (.ite (keeps_consolewrite ip _).map (keeps_pure _))
    (.ite (keeps_pure _)
      (.ite (keeps_pure _) ((keeps_writeChunks ip _ _).bind fun _ => .ite ?_ (keeps_pure _))))
  exact keeps_get.bind fun _ => (keeps_setDin ip _).bind fun _ => (keeps_iupdate ip).bind fun _ =>
    keeps_pure _

theorem keeps_readDirent (dp : InodeSlot) (off : Nat) (w : FsPanic) :
    KeepsRefs (readDirent dp off w) := by
  refine (keeps_readi dp off 16).bind fun r => ?_
  split
  · exact .ite (keeps_pure _) (keeps_throw _)
  · exact keeps_throw _

theorem dirlookupScan_refs {dp : InodeSlot} {name : Name} (offs : List Nat) (h : s.Refs R K) :
    (dirlookupScan dp name offs).wp (fun r t => t.Refs (plusOpt R (r.map Prod.fst)) K)
      (fun _ _ => True) s := by
  induction offs generalizing s with
  | nil => exact h
  | cons off offs ih =>
    simp only [dirlookupScan, Prog.wp_bind]
    refine Prog.wp_imp (keeps_readDirent dp off _ s R K h) fun de t ht => ?_
    refine Prog.wp_ite (fun _ => ih ht) fun _ => Prog.wp_ite (fun _ => ?_) fun _ => ih ht
    simp only [Prog.wp_bind]
    exact Prog.wp_imp (iget_refs ht) fun ip t ht => ht

theorem dirlookup_refs {dp : InodeSlot} {name : Name} (h : s.Refs R K) :
    (dirlookup dp name).wp (fun r t => t.Refs (plusOpt R (r.map Prod.fst)) K)
      (fun _ _ => True) s := by
  simp only [dirlookup, Prog.wp_bind, Prog.wp_get]
  exact Prog.wp_ite (fun _ => trivial) fun _ => dirlookupScan_refs _ h

theorem keeps_dirlinkScan (dp : InodeSlot) (last : Nat) (offs : List Nat) :
    KeepsRefs (dirlinkScan dp last offs) := by
  induction offs with
  | nil => exact keeps_pure _
  | cons off offs ih => exact (keeps_readDirent dp off _).bind fun _ => .ite (keeps_pure _) ih

theorem keeps_dirlink (dp : InodeSlot) (name : Name) (inum : Nat) :
    KeepsRefs (dirlink dp name inum) := by
  intro s R K h
  simp only [dirlink, Prog.wp_bind]
  refine Prog.wp_imp (dirlookup_refs h) fun r t ht => ?_
  cases r with
  | some r =>
    simp only [Prog.wp_bind]
    exact Prog.wp_imp (iput_refs ht) fun _ t ht => ht
  | none =>
    have hrest : KeepsRefs (do
        let s ← get
        let size := (s.inode dp).din.size.toNat
        let off ← dirlinkScan dp (16 * ((size + 15) / 16)) (direntOffsets size)
        let n ← writei dp (encodeDirent inum name) off
        if n = some 16 then return true else throw (.panic .dirlink) : FsM Bool) :=
      keeps_get.bind fun _ => (keeps_dirlinkScan dp _ _).bind fun _ => (keeps_writei dp _ _).bind fun _ =>
        .ite (keeps_pure _) (keeps_throw _)
    exact hrest t R K ht

theorem namexLoop_refs {parent : Bool} (names : List Name) (h : s.Refs (plus R ip) K) :
    (namexLoop parent ip names).wp (fun r t => t.Refs (plusOpt R (r.map Prod.fst)) K)
      (fun _ _ => True) s := by
  induction names generalizing s ip with
  | nil =>
    simp only [namexLoop]
    refine Prog.wp_ite (fun _ => ?_) fun _ => h
    simp only [Prog.wp_bind]
    exact Prog.wp_imp (iput_refs h) fun _ t ht => ht
  | cons name names ih =>
    simp only [namexLoop, Prog.wp_bind]
    refine Prog.wp_imp (ilock_refs h) fun _ t hpost => ?_
    obtain ⟨hk, _, ht⟩ := hpost
    have hgive : ∀ {s : Fs}, s.Refs (plus R ip) (lockAt K ip) →
        (do iunlockput ip; return none : FsM (Option (InodeSlot × Name))).wp
          (fun r t => t.Refs (plusOpt R (r.map Prod.fst)) K) (fun _ _ => True) s := by
      intro s hs
      simp only [Prog.wp_bind]
      exact Prog.wp_imp (iunlockput_refs hs hk) fun _ t ht => ht
    simp only [Prog.wp_get]
    refine Prog.wp_ite (fun _ => hgive ht) fun _ => Prog.wp_ite (fun _ => ?_) fun _ => ?_
    · simp only [Prog.wp_bind]
      exact Prog.wp_imp (iunlock_refs ht hk) fun _ t ht => ht
    · simp only [Prog.wp_bind]
      refine Prog.wp_imp (dirlookup_refs ht) fun r t ht => ?_
      cases r with
      | none => exact hgive ht
      | some r =>
        simp only [Option.map_some, plusOpt] at ht
        rw [plus_comm] at ht
        simp only [Prog.wp_bind]
        exact Prog.wp_imp (iunlockput_refs ht hk) fun _ t ht => ih ht

theorem namex_refs {cwd : InodeSlot} {path : List Byte} {parent : Bool} (h : s.Refs R K)
    (hcwd : 0 < R cwd) :
    (namex cwd path parent).wp (fun r t => t.Refs (plusOpt R (r.map Prod.fst)) K)
      (fun _ _ => True) s := by
  simp only [namex]
  refine Prog.wp_ite (fun _ => ?_) fun _ => ?_
  · simp only [Prog.wp_bind]
    exact Prog.wp_imp (iget_refs h) fun ip t ht => namexLoop_refs _ ht
  · simp only [Prog.wp_bind]
    exact Prog.wp_imp (idup_refs h hcwd) fun ip t hpost => namexLoop_refs _ (hpost.1 ▸ hpost.2)

theorem namei_refs {cwd : InodeSlot} {path : List Byte} (h : s.Refs R K) (hcwd : 0 < R cwd) :
    (namei cwd path).wp (fun r t => t.Refs (plusOpt R r) K) (fun _ _ => True) s := by
  simp only [namei, Prog.wp_bind]
  exact Prog.wp_imp (namex_refs h hcwd) fun r t ht => ht

theorem namei_ilock_refs {cwd : InodeSlot} {path : List Byte} {f : Option InodeSlot → FsM β}
    {g : InodeSlot → FsM β} {Q : β → Fs → Prop} (h : s.Refs R K) (hcwd : 0 < R cwd)
    (hg : ∀ ip, f (some ip) = ilock ip >>= fun _ => g ip)
    (hnone : ∀ t : Fs, t.Refs R K → (f none).wp Q (fun _ _ => True) t)
    (hsome : ∀ ip (t : Fs), K ip = false → t.Refs (plus R ip) (lockAt K ip) →
      (g ip).wp Q (fun _ _ => True) t) :
    (namei cwd path >>= f).wp Q (fun _ _ => True) s := by
  rw [Prog.wp_bind]
  refine Prog.wp_imp (namei_refs h hcwd) fun r t ht => ?_
  cases r with
  | none => exact hnone t ht
  | some ip =>
    simp only [plusOpt] at ht
    rw [hg, Prog.wp_bind]
    exact Prog.wp_imp (ilock_refs ht) fun _ t hpost => hsome ip t hpost.1 hpost.2.2

theorem nameiparent_refs {cwd : InodeSlot} {path : List Byte} (h : s.Refs R K) (hcwd : 0 < R cwd) :
    (nameiparent cwd path).wp (fun r t => t.Refs (plusOpt R (r.map Prod.fst)) K)
      (fun _ _ => True) s :=
  namex_refs h hcwd

theorem iallocScan_refs {type : BitVec 16} (inums : List Nat) (h : s.Refs R K) :
    (iallocScan type inums).wp (fun ip t => t.Refs (plus R ip) K) (fun _ _ => True) s := by
  induction inums generalizing s with
  | nil => trivial
  | cons inum inums ih =>
    simp only [iallocScan, Prog.wp_bind, Prog.wp_get]
    refine Prog.wp_imp (keeps_readBlock _ s R K h) fun data t ht =>
      Prog.wp_ite (fun _ => ?_) fun _ => ih ht
    simp only [Prog.wp_bind]
    exact Prog.wp_imp (keeps_logBlock _ _ t R K ht) fun _ t ht => iget_refs ht

theorem ialloc_refs {type : BitVec 16} (h : s.Refs R K) :
    (ialloc type).wp (fun ip t => t.Refs (plus R ip) K) (fun _ _ => True) s := by
  simp only [ialloc, Prog.wp_bind, Prog.wp_get]
  exact iallocScan_refs _ h

theorem keeps_setNlink (ip : InodeSlot) (f : BitVec 16 → BitVec 16) : KeepsRefs (setNlink ip f) :=
  keeps_get.bind fun _ => (keeps_setDin ip _).bind fun _ => keeps_iupdate ip

theorem keeps_createDots (dp ip : InodeSlot) : KeepsRefs (createDots dp ip) :=
  (keeps_setNlink dp _).bind fun _ => keeps_get.bind fun _ => (keeps_dirlink ip _ _).bind fun _ =>
    .ite ((keeps_dirlink ip _ _).bind fun _ => .ite (keeps_pure _) (keeps_throw _)) (keeps_throw _)

theorem createNew_refs {dp : InodeSlot} {name : Name} {type major minor : BitVec 16}
    (h : s.Refs (plus R dp) (lockAt K dp)) (hk : K dp = false) :
    (createNew dp name type major minor).wp
      (fun ip t => K ip = false ∧ t.Refs (plus R ip) (lockAt K ip))
      (fun _ _ => True) s := by
  simp only [createNew, Prog.wp_bind]
  refine Prog.wp_imp (ialloc_refs h) fun ip t ht => Prog.wp_imp (ilock_refs ht) fun _ t hpost => ?_
  obtain ⟨hkip, _, ht⟩ := hpost
  have hne : ip ≠ dp := by
    rintro rfl
    simp [lockAt] at hkip
  have hfree : K ip = false := by simpa [lockAt, Function.update_of_ne hne] using hkip
  have hfree' : lockAt K ip dp = false := by
    simpa [lockAt, Function.update_of_ne (Ne.symm hne)] using hk
  rw [plus_comm, lockAt_comm] at ht
  have hrest : ∀ {s : Fs}, s.Refs (plus (plus R ip) dp) (lockAt (lockAt K ip) dp) →
      (do
        let s ← get
        if ← dirlink dp name (s.inode ip).inum then
          iunlockput dp
          return ip
        else throw (.panic .createDirlink) : FsM InodeSlot).wp
        (fun ip t => K ip = false ∧ t.Refs (plus R ip) (lockAt K ip)) (fun _ _ => True) s := by
    intro s hs
    simp only [Prog.wp_bind, Prog.wp_get]
    refine Prog.wp_imp (keeps_dirlink dp _ _ s _ _ hs) fun b t ht =>
      Prog.wp_ite (fun _ => ?_) fun _ => trivial
    simp only [Prog.wp_bind]
    exact Prog.wp_imp (iunlockput_refs ht hfree') fun _ t ht => ⟨hfree, ht⟩
  simp only [Prog.wp_get]
  refine Prog.wp_imp (keeps_setDin ip _ t _ _ ht) fun _ t ht =>
    Prog.wp_imp (keeps_iupdate ip t _ _ ht) fun _ t ht =>
    Prog.wp_ite (fun _ => ?_) fun _ => hrest ht
  rw [Prog.wp_bind]
  exact Prog.wp_imp (keeps_createDots dp ip t _ _ ht) fun _ t ht => hrest ht

/-- The inode, if there is one, is referenced once more, and locked. -/
def Fs.Opened (R : InodeSlot → Nat) (K : InodeSlot → Bool) (r : Option InodeSlot) (t : Fs) : Prop :=
  match r with
  | none => t.Refs R K
  | some ip => K ip = false ∧ t.Refs (plus R ip) (lockAt K ip)

theorem create_refs {cwd : InodeSlot} {path : List Byte} {type major minor : BitVec 16}
    (h : s.Refs R K) (hcwd : 0 < R cwd) :
    (create cwd path type major minor).wp (Fs.Opened R K) (fun _ _ => True) s := by
  simp only [create, Prog.wp_bind]
  refine Prog.wp_imp (nameiparent_refs h hcwd) fun r t ht => ?_
  cases r with
  | none => exact ht
  | some r =>
    obtain ⟨dp, name⟩ := r
    simp only [Option.map_some, plusOpt] at ht
    simp only [Prog.wp_bind]
    refine Prog.wp_imp (ilock_refs ht) fun _ t hpost => ?_
    obtain ⟨hk, _, ht⟩ := hpost
    refine Prog.wp_imp (dirlookup_refs ht) fun r t ht => ?_
    cases r with
    | none =>
      simp only [Prog.wp_map]
      exact createNew_refs ht hk
    | some r =>
      simp only [Option.map_some, plusOpt] at ht
      rw [plus_comm] at ht
      simp only [Prog.wp_bind]
      refine Prog.wp_imp (iunlockput_refs ht hk) fun _ t ht => Prog.wp_imp (ilock_refs ht) fun _ t hpost => ?_
      obtain ⟨hk, _, ht⟩ := hpost
      simp only [Prog.wp_get]
      refine Prog.wp_ite (fun _ => ⟨hk, ht⟩) fun _ => ?_
      simp only [Prog.wp_bind]
      exact Prog.wp_imp (iunlockput_refs ht hk) fun _ t ht => ht

theorem linkUndo_refs (h : s.Refs (plus R ip) K) :
    (linkUndo ip).wp (fun _ t => t.Refs R K) (fun _ _ => True) s := by
  simp only [linkUndo, Prog.wp_bind]
  refine Prog.wp_imp (ilock_refs h) fun _ t hpost => ?_
  obtain ⟨hk, _, ht⟩ := hpost
  refine Prog.wp_imp (keeps_setNlink ip _ t _ _ ht) fun _ t ht => ?_
  exact Prog.wp_imp (iunlockput_refs ht hk) fun _ t ht => ht

theorem link_refs {cwd : InodeSlot} {old new : List Byte} (h : s.Refs R K) (hcwd : 0 < R cwd) :
    (link cwd old new).wp (fun _ t => t.Refs R K) (fun _ _ => True) s := by
  unfold link
  refine namei_ilock_refs h hcwd (fun _ => rfl) (fun t ht => ht) fun ip t hk ht => ?_
  simp only [Prog.wp_bind, Prog.wp_get]
  refine Prog.wp_ite (fun _ => ?_) fun _ => ?_
  · simp only [Prog.wp_bind]
    exact Prog.wp_imp (iunlockput_refs ht hk) fun _ t ht => ht
  simp only [Prog.wp_bind]
  refine Prog.wp_imp (keeps_setNlink ip _ _ _ _ ht) fun _ t ht =>
    Prog.wp_imp (iunlock_refs ht hk) fun _ t ht => ?_
  refine Prog.wp_imp (nameiparent_refs ht (Nat.lt_of_lt_of_le hcwd (le_plus R ip cwd)))
    fun r t ht => ?_
  cases r with
  | none => exact linkUndo_refs ht
  | some r =>
    obtain ⟨dp, name⟩ := r
    simp only [Option.map_some, plusOpt] at ht
    simp only [Prog.wp_bind]
    refine Prog.wp_imp (ilock_refs ht) fun _ t hpost => ?_
    obtain ⟨hk, _, ht⟩ := hpost
    refine Prog.wp_imp (keeps_dirlink dp _ _ t _ _ ht) fun b t ht =>
      Prog.wp_ite (fun _ => ?_) fun _ => ?_
    · simp only [Prog.wp_bind]
      refine Prog.wp_imp (iunlockput_refs ht hk) fun _ t ht => Prog.wp_imp (iput_refs ht) fun _ t ht => ht
    · rw [Prog.wp_bind]
      exact Prog.wp_imp (iunlockput_refs ht hk) fun _ t ht => linkUndo_refs ht

theorem keeps_isdirempty (dp : InodeSlot) : KeepsRefs (isdirempty dp) := by
  have hscan : ∀ offs, KeepsRefs (isdiremptyScan dp offs) := by
    intro offs
    induction offs with
    | nil => exact keeps_pure _
    | cons off offs ih => exact (keeps_readDirent dp off _).bind fun _ => .ite ih (keeps_pure _)
  exact keeps_get.bind fun _ => hscan _

theorem unlinkEntry_refs {dp : InodeSlot} {off : Nat}
    (h : s.Refs (plus (plus R ip) dp) (lockAt (lockAt K ip) dp)) (hk : K ip = false)
    (hk' : lockAt K ip dp = false) :
    (unlinkEntry dp ip off).wp (fun _ t => t.Refs R K) (fun _ _ => True) s := by
  have hrest : ∀ {s : Fs}, s.Refs (plus (plus R ip) dp) (lockAt (lockAt K ip) dp) →
      (do iunlockput dp; setNlink ip (· - 1); iunlockput ip : FsM Unit).wp (fun _ t => t.Refs R K)
        (fun _ _ => True) s := by
    intro s hs
    simp only [Prog.wp_bind]
    refine Prog.wp_imp (iunlockput_refs hs hk') fun _ t ht =>
      Prog.wp_imp (keeps_setNlink ip _ t _ _ ht) fun _ t ht => ?_
    exact iunlockput_refs ht hk
  simp only [unlinkEntry, Prog.wp_bind]
  refine Prog.wp_imp (keeps_writei dp _ _ s _ _ h) fun n t ht =>
    Prog.wp_ite (fun _ => trivial) fun _ => ?_
  simp only [Prog.wp_bind, Prog.wp_get]
  refine Prog.wp_ite (fun _ => ?_) fun _ => hrest ht
  rw [Prog.wp_bind]
  exact Prog.wp_imp (keeps_setNlink dp _ t _ _ ht) fun _ t ht => hrest ht

theorem unlink_refs {cwd : InodeSlot} {path : List Byte} (h : s.Refs R K) (hcwd : 0 < R cwd) :
    (unlink cwd path).wp (fun _ t => t.Refs R K) (fun _ _ => True) s := by
  simp only [unlink, Prog.wp_bind]
  refine Prog.wp_imp (nameiparent_refs h hcwd) fun r t ht => ?_
  cases r with
  | none => exact ht
  | some r =>
    obtain ⟨dp, name⟩ := r
    simp only [Option.map_some, plusOpt] at ht
    simp only [Prog.wp_bind]
    refine Prog.wp_imp (ilock_refs ht) fun _ t hpost => ?_
    obtain ⟨hk, _, ht⟩ := hpost
    refine Prog.wp_ite (fun _ => ?_) fun _ => ?_
    · simp only [Prog.wp_bind]
      exact Prog.wp_imp (iunlockput_refs ht hk) fun _ t ht => ht
    simp only [Prog.wp_bind]
    refine Prog.wp_imp (dirlookup_refs ht) fun r t ht => ?_
    cases r with
    | none =>
      simp only [Prog.wp_bind]
      exact Prog.wp_imp (iunlockput_refs ht hk) fun _ t ht => ht
    | some r =>
      obtain ⟨ip, off⟩ := r
      simp only [Option.map_some, plusOpt] at ht
      simp only [Prog.wp_bind]
      refine Prog.wp_imp (ilock_refs ht) fun _ t hpost => ?_
      obtain ⟨hkip, _, ht⟩ := hpost
      have hne : ip ≠ dp := by
        rintro rfl
        simp [lockAt] at hkip
      have hfree : K ip = false := by simpa [lockAt, Function.update_of_ne hne] using hkip
      have hfree' : lockAt K ip dp = false := by simpa [lockAt, Function.update_of_ne (Ne.symm hne)] using hk
      have hend : ∀ {full : Bool} {s : Fs}, s.Refs (plus (plus R dp) ip) (lockAt (lockAt K dp) ip) →
          (if full then do iunlockput ip; iunlockput dp; return false
            else do unlinkEntry dp ip off; return true : FsM Bool).wp (fun _ t => t.Refs R K) (fun _ _ => True) s := by
        intro full s hs
        refine Prog.wp_ite (fun _ => ?_) fun _ => ?_
        · simp only [Prog.wp_bind]
          refine Prog.wp_imp (iunlockput_refs hs hkip) fun _ t ht => ?_
          exact Prog.wp_imp (iunlockput_refs ht hk) fun _ t ht => ht
        · rw [plus_comm, lockAt_comm] at hs
          simp only [Prog.wp_bind]
          exact Prog.wp_imp (unlinkEntry_refs hs hfree hfree') fun _ t ht => ht
      simp only [Prog.wp_get]
      refine Prog.wp_ite (fun _ => trivial) fun _ => Prog.wp_ite (fun _ => ?_) fun _ => ?_
      · simp only [Prog.wp_bind, Prog.wp_map]
        exact Prog.wp_imp (keeps_isdirempty ip t _ _ ht) fun b t ht => hend ht
      · simp only [Prog.wp_bind, Prog.wp_pure]
        exact hend ht

theorem openExisting_refs {cwd : InodeSlot} {path : List Byte} {rdonly : Bool} (h : s.Refs R K)
    (hcwd : 0 < R cwd) :
    (openExisting cwd path rdonly).wp (Fs.Opened R K) (fun _ _ => True) s := by
  unfold openExisting
  refine namei_ilock_refs h hcwd (fun _ => rfl) (fun t ht => ht) fun ip t hk ht => ?_
  simp only [Prog.wp_bind, Prog.wp_get]
  refine Prog.wp_ite (fun _ => ?_) fun _ => ⟨hk, ht⟩
  simp only [Prog.wp_bind]
  exact Prog.wp_imp (iunlockput_refs ht hk) fun _ t ht => ht

theorem chdirTarget_refs {cwd : InodeSlot} {path : List Byte} (h : s.Refs R K) (hcwd : 0 < R cwd) :
    (chdirTarget cwd path).wp (fun r t => t.Refs (plusOpt R r) K) (fun _ _ => True) s := by
  unfold chdirTarget
  refine namei_ilock_refs h hcwd (fun _ => rfl) (fun t ht => ht) fun ip t hk ht => ?_
  simp only [Prog.wp_bind, Prog.wp_get]
  refine Prog.wp_ite (fun _ => ?_) fun _ => ?_
  · simp only [Prog.wp_bind]
    exact Prog.wp_imp (iunlockput_refs ht hk) fun _ t ht => ht
  · simp only [Prog.wp_bind]
    exact Prog.wp_imp (iunlock_refs ht hk) fun _ t ht => ht

theorem makeNode_refs {cwd : InodeSlot} {path : List Byte} {type major minor : BitVec 16}
    (h : s.Refs R K)
    (hcwd : 0 < R cwd) : (makeNode cwd path type major minor).wp (fun _ t => t.Refs R K)
    (fun _ _ => True) s := by
  simp only [makeNode, Prog.wp_bind]
  refine Prog.wp_imp (create_refs h hcwd) fun r t ht => ?_
  cases r with
  | none => exact ht
  | some ip =>
    simp only [Prog.wp_bind]
    exact Prog.wp_imp (iunlockput_refs ht.2 ht.1) fun _ t ht => ht

theorem keeps_loaduvm (ip : InodeSlot) (off sz : Nat) : KeepsRefs (loaduvm ip off sz) := by
  have hpages : ∀ is, KeepsRefs (loaduvmPages ip off sz is) := by
    intro is
    induction is with
    | nil => exact keeps_pure _
    | cons i is ih =>
      refine (keeps_readi ip _ _).bind fun r => ?_
      split
      · exact .ite ih (keeps_pure _)
      · exact keeps_pure _
  exact hpages _

theorem keeps_execLoad (ip : InodeSlot) (mem : ExecMemory) : KeepsRefs (execLoad ip mem) := by
  have hsegment : ∀ i off, KeepsRefs (execSegment ip mem i off) := by
    intro i off
    refine (keeps_readi ip _ _).bind fun r => ?_
    split
    · exact keeps_pure _
    · exact .ite (keeps_pure _)
        (.ite (keeps_pure _) (.ite (keeps_pure _) (.ite (keeps_pure _) (.ite (keeps_pure _)
        (.ite (keeps_pure _) (keeps_loaduvm ip _ _))))))
  have hsegments : ∀ phoff is, KeepsRefs (execSegments ip mem phoff is) := by
    intro phoff is
    induction is with
    | nil => exact keeps_pure _
    | cons i is ih => exact (hsegment i _).bind fun _ => .ite ih (keeps_pure _)
  exact (keeps_readi ip _ _).bind fun _ =>
    .ite (keeps_pure _) (.ite (keeps_pure _) (.ite (keeps_pure _) (hsegments _ _)))

theorem execFile_refs {cwd : InodeSlot} {path : List Byte} {mem : ExecMemory} (h : s.Refs R K)
    (hcwd : 0 < R cwd) :
    (execFile cwd path mem).wp (fun _ t => t.Refs R K) (fun _ _ => True) s := by
  unfold execFile
  refine namei_ilock_refs h hcwd (fun _ => rfl) (fun t ht => ht) fun ip t hk ht => ?_
  simp only [Prog.wp_bind]
  refine Prog.wp_imp (keeps_execLoad ip mem t _ _ ht) fun b t ht => ?_
  exact Prog.wp_imp (iunlockput_refs ht hk) fun _ t ht => ht

end Xv6
