import Xv6.MkfsLayout

namespace Xv6

open Bytes

/-- The places that have a block are those that the length of the file asks for. -/
structure Exact (alloc : List Ref) (content : Nat → List Byte) : Prop where
  data : ∀ i bn, Ref.data i bn ∈ alloc ↔ bn * BSIZE < (content i).length
  ind : ∀ i, Ref.ind i ∈ alloc ↔ NDIRECT * BSIZE < (content i).length

/-- The blocks of a file of some length, with its indirect block. -/
def blocks (len : Nat) : Nat := (len + (BSIZE - 1)) / BSIZE + if NDIRECT * BSIZE < len then 1 else 0

/-- The places that get a block when a byte is added to a file of some length. -/
def newRefs (i off : Nat) : List Ref :=
  if off % BSIZE = 0 then
    if off = NDIRECT * BSIZE then [.ind i, .data i NDIRECT] else [.data i (off / BSIZE)]
  else []

section Blocks

variable {off n : Nat}

theorem blocks_pass (hpos : 0 < n) (hn : n ≤ (off / BSIZE + 1) * BSIZE - off) (i : Nat) :
    blocks (off + n) = blocks off + (newRefs i off).length := by
  have hdiv := Nat.div_add_mod off BSIZE
  unfold blocks newRefs
  simp only [NDIRECT, BSIZE] at *
  by_cases hmod : off % 512 = 0
  · rw [if_pos hmod]
    by_cases hind : off = 12 * 512
    · subst hind
      simp only [if_true, List.length_cons, List.length_nil]
      split <;> split <;> omega
    · rw [if_neg hind]
      simp only [List.length_cons, List.length_nil]
      split <;> split <;> omega
  · rw [if_neg hmod]
    simp only [List.length_nil]
    split <;> split <;> omega

theorem blocks_mono {len len' : Nat} (h : len ≤ len') : blocks len ≤ blocks len' := by
  have hdiv : (len + (BSIZE - 1)) / BSIZE ≤ (len' + (BSIZE - 1)) / BSIZE :=
    Nat.div_le_div_right (by omega)
  unfold blocks
  split <;> split <;> omega

theorem exact_pass {alloc : List Ref} {content : Nat → List Byte} {i : Nat} {piece : List Byte}
    (h : Exact alloc content) (hpos : 0 < piece.length)
    (hn : piece.length ≤ ((content i).length / BSIZE + 1) * BSIZE - (content i).length) :
    Exact (alloc ++ newRefs i (content i).length)
      (Function.update content i (content i ++ piece)) := by
  have hother : ∀ j, j ≠ i → Ref.ind j ∉ newRefs i (content i).length ∧
      ∀ bn, Ref.data j bn ∉ newRefs i (content i).length := by
    intro j hj
    unfold newRefs
    constructor
    · split
      · split <;> simp [hj]
      · simp
    · intro bn
      split
      · split <;> simp [hj]
      · simp
  constructor
  · intro j bn
    rw [List.mem_append, h.data]
    by_cases hj : j = i
    · subst hj
      rw [Function.update_self, List.length_append]
      generalize (content j).length = off at *
      have hdiv := Nat.div_add_mod off BSIZE
      unfold newRefs
      simp only [NDIRECT, BSIZE] at *
      by_cases hmod : off % 512 = 0
      · rw [if_pos hmod]
        by_cases hind : off = 12 * 512
        · rw [if_pos hind]
          simp
          omega
        · rw [if_neg hind]
          simp
          omega
      · rw [if_neg hmod]
        simp
        omega
    · rw [Function.update_of_ne hj]
      simp [(hother j hj).2]
  · intro j
    rw [List.mem_append, h.ind]
    by_cases hj : j = i
    · subst hj
      rw [Function.update_self, List.length_append]
      generalize (content j).length = off at *
      have hdiv := Nat.div_add_mod off BSIZE
      unfold newRefs
      simp only [NDIRECT, BSIZE] at *
      by_cases hmod : off % 512 = 0
      · rw [if_pos hmod]
        by_cases hind : off = 12 * 512
        · rw [if_pos hind]
          simp
          omega
        · rw [if_neg hind]
          simp
          omega
      · rw [if_neg hmod]
        simp
        omega
    · rw [Function.update_of_ne hj]
      simp [(hother j hj).1]

end Blocks

section Pass

variable {st : Mkfs} {din : Nat → Dinode} {alloc : List Ref} {content : Nat → List Byte}

/-- mkfs's counter stands behind the blocks of a layout. -/
structure Mkfs.Lays (st : Mkfs) (din : Nat → Dinode) (alloc : List Ref)
    (content : Nat → List Byte) : Prop where
  layout : Layout st.image din alloc content
  free : st.freeblock = nmeta + alloc.length

/-- An inode with other addresses. -/
def Dinode.withAddrs (d : Dinode) (a : Fin (NDIRECT + 1) → BitVec 32) : Dinode :=
  { d with addrs := a }

theorem Mkfs.slot_spec (h : st.Lays din alloc content) {i : Nat} {k : Fin (NDIRECT + 1)}
    (hroom : slotRef i k ∉ alloc → nmeta + alloc.length < FSSIZE)
    (hnew : slotRef i k ∉ alloc → k.val < NDIRECT → (content i).length ≤ k.val * BSIZE) :
    ∃ fb a, st.slot (din i) k = ({ st with freeblock := fb }, (din i).withAddrs a) ∧
      Mkfs.Lays { st with freeblock := fb } (Function.update din i ((din i).withAddrs a))
        (alloc ++ if slotRef i k ∈ alloc then [] else [slotRef i k]) content := by
  have hzero : (din i).addrs k = 0 ↔ slotRef i k ∉ alloc := by
    rw [h.layout.mem_iff, addrOf_slotRef, not_not]
    exact BitVec.toNat_inj.symm
  unfold Mkfs.slot
  by_cases hm : slotRef i k ∈ alloc
  · rw [if_neg (fun hz => hzero.mp hz hm), if_pos hm, List.append_nil]
    refine ⟨st.freeblock, (din i).addrs, rfl, ?_⟩
    have hself : (din i).withAddrs (din i).addrs = din i := rfl
    rw [hself, Function.update_eq_self]
    exact h
  · rw [if_pos (hzero.mpr hm), if_neg hm, h.free]
    exact ⟨_, _, rfl, h.layout.setAddr hm (hroom hm) (hnew hm), by
      simp only [List.length_append, List.length_cons, List.length_nil]; omega⟩

theorem Mkfs.rsect_of_mem (h : st.Lays din alloc content) {r : Ref} (hr : r ∈ alloc) :
    st.rsect (addrOf st.image din r) = some (st.image (addrOf st.image din r)) := by
  have hlt := (h.layout.addr_bounds hr).2
  have hroom := h.layout.room
  exact if_pos (by omega)

theorem Exact.newRefs_direct (he : Exact alloc content) {i : Nat}
    (hlo : (content i).length / BSIZE < NDIRECT) :
    newRefs i (content i).length =
      if Ref.data i ((content i).length / BSIZE) ∈ alloc then []
        else [.data i ((content i).length / BSIZE)] := by
  have hdata := he.data i ((content i).length / BSIZE)
  generalize (content i).length = off at *
  have hdiv := Nat.div_add_mod off BSIZE
  unfold newRefs
  simp only [NDIRECT, BSIZE] at *
  by_cases hmod : off % 512 = 0
  · rw [if_pos hmod, if_neg (by omega), if_neg (by rw [hdata]; omega)]
  · rw [if_neg hmod, if_pos (by rw [hdata]; omega)]

theorem Exact.newRefs_indirect (he : Exact alloc content) {i : Nat}
    (hhi : NDIRECT ≤ (content i).length / BSIZE) :
    newRefs i (content i).length = (if Ref.ind i ∈ alloc then [] else [.ind i]) ++
      if Ref.data i ((content i).length / BSIZE) ∈ alloc then []
        else [.data i ((content i).length / BSIZE)] := by
  have hdata := he.data i ((content i).length / BSIZE)
  have hind := he.ind i
  generalize (content i).length = off at *
  have hdiv := Nat.div_add_mod off BSIZE
  unfold newRefs
  simp only [NDIRECT, BSIZE] at *
  by_cases hmod : off % 512 = 0
  · rw [if_pos hmod, if_neg (c := Ref.data i (off / 512) ∈ alloc) (by rw [hdata]; omega)]
    by_cases hlast : off = 12 * 512
    · subst hlast
      rw [if_pos rfl, if_neg (by rw [hind]; omega)]
      rfl
    · rw [if_neg hlast, if_pos (by rw [hind]; omega)]
      rfl
  · rw [if_neg hmod, if_pos (c := Ref.data i (off / 512) ∈ alloc) (by rw [hdata]; omega),
      if_pos (by rw [hind]; omega)]
    rfl

/-- What fileBlock does for the next byte of a file: its block and the places that had none. -/
def Mkfs.Grows (st : Mkfs) (din : Nat → Dinode) (alloc : List Ref) (content : Nat → List Byte)
    (i : Nat) : Prop :=
  ∃ st' a, st.fileBlock (din i) ((content i).length / BSIZE) =
      some (st', (din i).withAddrs a,
        addrOf st'.image (Function.update din i ((din i).withAddrs a)) (.data i ((content i).length / BSIZE))) ∧
    st'.Lays (Function.update din i ((din i).withAddrs a)) (alloc ++ newRefs i (content i).length)
      content ∧
    st'.freeinode = st.freeinode ∧ ∀ b, b < nmeta → st'.image b = st.image b

theorem Mkfs.fileBlock_direct (h : st.Lays din alloc content) (he : Exact alloc content) {i : Nat}
    (hlo : (content i).length / BSIZE < NDIRECT)
    (hroom : nmeta + alloc.length + (newRefs i (content i).length).length ≤ FSSIZE) :
    st.Grows din alloc content i := by
  have hrefs := he.newRefs_direct hlo
  have href : slotRef i ⟨(content i).length / BSIZE, by omega⟩ =
      .data i ((content i).length / BSIZE) := by
    simp [slotRef, hlo]
  obtain ⟨fb, a, hslot, hlays⟩ := Mkfs.slot_spec h (i := i)
    (k := ⟨(content i).length / BSIZE, by omega⟩) (by
      intro hm
      rw [href] at hm
      rw [hrefs, if_neg hm] at hroom
      exact hroom) (by
      intro hm _
      rw [href, he.data] at hm
      exact Nat.le_of_not_lt hm)
  rw [href, ← hrefs] at hlays
  refine ⟨{ st with freeblock := fb }, a, ?_, hlays, rfl, fun _ _ => rfl⟩
  simp [Mkfs.fileBlock, hlo, hslot, addrOf]

theorem Mkfs.entry_spec (h : st.Lays din alloc content) {i bn : Nat} (hlo : NDIRECT ≤ bn)
    (hhi : bn < MAXFILE) (hind : Ref.ind i ∈ alloc)
    (hroom : Ref.data i bn ∉ alloc → nmeta + alloc.length < FSSIZE)
    (hnew : Ref.data i bn ∉ alloc → (content i).length ≤ bn * BSIZE) :
    ∃ st', st.entry (addrOf st.image din (.ind i)) (bn - NDIRECT) =
      some (st', addrOf st'.image din (.data i bn)) ∧
      st'.Lays din (alloc ++ if Ref.data i bn ∈ alloc then [] else [.data i bn]) content ∧
      st'.freeinode = st.freeinode ∧ ∀ b, b < nmeta → st'.image b = st.image b := by
  have hz : ¬ ((din i).addrs (Fin.last NDIRECT)).toNat = 0 := h.layout.mem_iff.mp hind
  have hword : ∀ img : Nat → DiskBlock, addrOf img din (.data i bn) =
      (u32 (img (addrOf st.image din (.ind i))) (4 * (bn - NDIRECT))).toNat := by
    intro img
    simp only [addrOf]
    rw [dif_neg (by omega), if_neg hz]
  unfold Mkfs.entry
  rw [Mkfs.rsect_of_mem h hind]
  by_cases hm : Ref.data i bn ∈ alloc
  · have hnz : ¬ u32 (st.image (addrOf st.image din (.ind i))) (4 * (bn - NDIRECT)) = 0 := by
      intro hzero
      have hpos := h.layout.mem_iff.mp hm
      rw [hword, hzero] at hpos
      exact hpos rfl
    rw [if_pos hm, List.append_nil]
    refine ⟨st, ?_, h, rfl, fun _ _ => rfl⟩
    rw [hword st.image]
    exact if_neg hnz
  · have hzero : u32 (st.image (addrOf st.image din (.ind i))) (4 * (bn - NDIRECT)) = 0 := by
      have haddr := h.layout.none _ hm
      rw [hword] at haddr
      exact BitVec.toNat_inj.mp haddr
    have hl := h.layout.withEntry hlo hhi hind hm (hroom hm) (hnew hm)
    rw [if_neg hm]
    refine ⟨{ st with freeblock := st.freeblock + 1 }.wsect (addrOf st.image din (.ind i))
      (setU32 (st.image (addrOf st.image din (.ind i))) (4 * (bn - NDIRECT)) (BitVec.ofNat 32 st.freeblock)),
      ?_, ⟨?_, ?_⟩, rfl, ?_⟩
    · rw [hword]
      simp [hzero, Mkfs.wsect]
    · rw [← h.free] at hl
      exact hl
    · have hfree := h.free
      simp only [Mkfs.wsect, List.length_append, List.length_cons, List.length_nil]
      omega
    · intro b hb
      have hlo' := (h.layout.addr_bounds hind).1
      simp only [Mkfs.wsect]
      exact Function.update_of_ne (by omega) _ _

theorem Mkfs.fileBlock_indirect (h : st.Lays din alloc content) (he : Exact alloc content) {i : Nat}
    (hhi : NDIRECT ≤ (content i).length / BSIZE) (hmax : (content i).length / BSIZE < MAXFILE)
    (hroom : nmeta + alloc.length + (newRefs i (content i).length).length ≤ FSSIZE) :
    st.Grows din alloc content i := by
  have hrefs := he.newRefs_indirect hhi
  have hdata := he.data i ((content i).length / BSIZE)
  have href : slotRef i (Fin.last NDIRECT) = .ind i := by simp [slotRef]
  rw [hrefs, List.length_append] at hroom
  obtain ⟨fb, a, hslot, hlays⟩ := Mkfs.slot_spec h (i := i) (k := Fin.last NDIRECT) (by
      intro hm
      rw [href] at hm
      rw [if_neg hm, List.length_cons] at hroom
      omega) (by
      intro _ hk
      simp at hk)
  rw [href] at hlays
  have hmem : ∀ r, r ≠ Ref.ind i →
      (r ∈ alloc ++ (if Ref.ind i ∈ alloc then [] else [.ind i]) ↔ r ∈ alloc) := by
    intro r hr
    split <;> simp [hr]
  have hind : Ref.ind i ∈ alloc ++ (if Ref.ind i ∈ alloc then [] else [.ind i]) := by
    by_cases hm : Ref.ind i ∈ alloc
    · simp [hm]
    · simp [hm]
  have hm := hmem (.data i ((content i).length / BSIZE)) (by simp)
  obtain ⟨st', hrun, hlays', hfree, hmeta⟩ := Mkfs.entry_spec hlays hhi hmax hind (by
      intro hn
      rw [hm] at hn
      rw [if_neg hn, List.length_cons] at hroom
      rw [List.length_append]
      omega) (by
      intro hn
      rw [hm, hdata] at hn
      exact Nat.le_of_not_lt hn)
  refine ⟨st', a, ?_, ?_, hfree, hmeta⟩
  · have haddr : (((din i).withAddrs a).addrs (Fin.last NDIRECT)).toNat =
        addrOf st.image (Function.update din i ((din i).withAddrs a)) (.ind i) := by
      simp [addrOf]
    unfold Mkfs.fileBlock
    rw [dif_neg (by omega), hslot]
    simp only
    rw [haddr, hrun]
    rfl
  · rw [hrefs, ← List.append_assoc]
    simpa only [hm] using hlays'

theorem Mkfs.fileBlock_grows (h : st.Lays din alloc content) (he : Exact alloc content) {i : Nat}
    (hmax : (content i).length / BSIZE < MAXFILE)
    (hroom : nmeta + alloc.length + (newRefs i (content i).length).length ≤ FSSIZE) :
    st.Grows din alloc content i := by
  by_cases hlo : (content i).length / BSIZE < NDIRECT
  · exact Mkfs.fileBlock_direct h he hlo hroom
  · exact Mkfs.fileBlock_indirect h he (Nat.le_of_not_lt hlo) hmax hroom

theorem Exact.mem_newRefs (he : Exact alloc content) (i : Nat) :
    Ref.data i ((content i).length / BSIZE) ∈ alloc ++ newRefs i (content i).length := by
  by_cases hlo : (content i).length / BSIZE < NDIRECT
  · rw [he.newRefs_direct hlo]
    split <;> simp_all
  · rw [he.newRefs_indirect (Nat.le_of_not_lt hlo)]
    split <;> split <;> simp_all

/-- The file has grown by some bytes, in memory as far as its inode is concerned. -/
def Mkfs.Appended (st : Mkfs) (din : Nat → Dinode) (alloc : List Ref) (content : Nat → List Byte)
    (i : Nat) (p : List Byte) (r : Option (Mkfs × Dinode × Nat)) : Prop :=
  ∃ st' a alloc', r = some (st', (din i).withAddrs a, (content i).length + p.length) ∧
    st'.Lays (Function.update din i ((din i).withAddrs a)) alloc'
      (Function.update content i (content i ++ p)) ∧
    Exact alloc' (Function.update content i (content i ++ p)) ∧
    alloc'.length + blocks (content i).length =
      alloc.length + blocks ((content i).length + p.length) ∧
    st'.freeinode = st.freeinode ∧ ∀ b, b < nmeta → st'.image b = st.image b

theorem Mkfs.appended_nil (h : st.Lays din alloc content) (he : Exact alloc content) (i : Nat) :
    st.Appended din alloc content i [] (some (st, din i, (content i).length)) := by
  refine ⟨st, (din i).addrs, alloc, rfl, ?_, ?_, rfl, rfl, fun _ _ => rfl⟩
  · have hself : (din i).withAddrs (din i).addrs = din i := rfl
    rw [hself, List.append_nil, Function.update_eq_self, Function.update_eq_self]
    exact h
  · rw [List.append_nil, Function.update_eq_self]
    exact he

/-- One pass of the loop: the block is found and a piece of at most the rest of it is written. -/
theorem Mkfs.pass_spec {i : Nat} (piece : List Byte) (h : st.Lays din alloc content)
    (he : Exact alloc content) (hpos : 0 < piece.length)
    (hn : piece.length ≤ ((content i).length / BSIZE + 1) * BSIZE - (content i).length)
    (hmax : (content i).length / BSIZE < MAXFILE)
    (hroom : nmeta + alloc.length + blocks ((content i).length + piece.length) ≤
      FSSIZE + blocks (content i).length) :
    ∃ st1 a x buf, st.fileBlock (din i) ((content i).length / BSIZE) =
      some (st1, (din i).withAddrs a, x) ∧
      st1.rsect x = some buf ∧
      st.Appended din alloc content i piece (some
        (st1.wsect x (put buf ((content i).length - (content i).length / BSIZE * BSIZE) piece), (din i).withAddrs a,
          (content i).length + piece.length)) := by
  have hblocks := blocks_pass hpos hn i
  obtain ⟨st1, a, hrun, hlays, hfree, hmeta⟩ := Mkfs.fileBlock_grows h he hmax (by omega)
  have hmem := he.mem_newRefs i
  have hlo := (hlays.layout.addr_bounds hmem).1
  refine ⟨st1, a, _, _, hrun, Mkfs.rsect_of_mem hlays hmem, _, a, _, rfl, ⟨?_, ?_⟩,
    exact_pass he hpos hn, ?_, hfree, ?_⟩
  · have hdiv := Nat.div_add_mod (content i).length BSIZE
    refine hlays.layout.withPiece hmem ?_ ?_
    · simp only [BSIZE] at *
      omega
    · simp only [BSIZE] at *
      omega
  · exact hlays.free
  · rw [List.length_append]
    omega
  · intro b hb
    simp only [Mkfs.wsect]
    rw [Function.update_of_ne (by omega)]
    exact hmeta b hb

theorem Mkfs.appendLoop_spec {fuel i : Nat} {p : List Byte} (h : st.Lays din alloc content)
    (he : Exact alloc content) (hfuel : p.length ≤ fuel)
    (hmax : (content i).length + p.length ≤ MAXFILE * BSIZE)
    (hroom : nmeta + alloc.length + blocks ((content i).length + p.length) ≤
      FSSIZE + blocks (content i).length) :
    st.Appended din alloc content i p (Mkfs.appendLoop fuel st (din i) (content i).length p) := by
  induction fuel generalizing st din alloc content p with
  | zero =>
    have hp : p = [] := List.length_eq_zero_iff.mp (by omega)
    subst hp
    exact Mkfs.appended_nil h he i
  | succ fuel ih =>
    by_cases hp : p = []
    · subst hp
      exact Mkfs.appended_nil h he i
    · have hlen : 0 < p.length := List.length_pos_iff.mpr hp
      have hdiv := Nat.div_add_mod (content i).length BSIZE
      have hmod : (content i).length % BSIZE < BSIZE := Nat.mod_lt _ (by decide)
      generalize hn1 : min p.length (((content i).length / BSIZE + 1) * BSIZE - (content i).length) = n1
      have hpos : 0 < n1 := by
        rw [← hn1]
        simp only [BSIZE] at *
        omega
      have htake : (p.take n1).length = n1 := by
        rw [List.length_take]
        omega
      have hdrop : (p.drop n1).length = p.length - n1 := List.length_drop
      have hfbn : (content i).length / BSIZE < MAXFILE := by
        simp only [BSIZE, MAXFILE, NDIRECT, NINDIRECT] at *
        omega
      have hmono : blocks ((content i).length + n1) ≤ blocks ((content i).length + p.length) :=
        blocks_mono (by omega)
      obtain ⟨st1, a, x, buf, hrun, hread, st2, a2, alloc2, hst2, hlays2, hexact2, hcount2, hfree2, hmeta2⟩ :=
        Mkfs.pass_spec (p.take n1) h he (by omega) (by omega) hfbn (by rw [htake]; omega)
      obtain ⟨rfl, hdin, _⟩ : st1.wsect x
        (put buf ((content i).length - (content i).length / BSIZE * BSIZE) (p.take n1))
          = st2 ∧ (din i).withAddrs a = (din i).withAddrs a2 ∧ True := by
        simpa using hst2
      rw [← hdin] at hlays2
      have hcur : (Function.update content i (content i ++ p.take n1) i).length =
        (content i).length + n1 := by
        rw [Function.update_self, List.length_append, htake]
      obtain ⟨st3, a3, alloc3, hrun3, hlays3, hexact3, hcount3, hfree3, hmeta3⟩ :=
        ih (p := p.drop n1) hlays2 hexact2 (by omega) (by rw [hcur]; omega) (by
          rw [hcur, hdrop]
          rw [htake] at hcount2
          have : (content i).length + n1 + (p.length - n1) = (content i).length + p.length := by omega
          rw [this]
          omega)
      have hcontent : Function.update (Function.update content i (content i ++ p.take n1)) i
          (Function.update content i (content i ++ p.take n1) i ++ p.drop n1) =
          Function.update content i (content i ++ p) := by
        rw [Function.update_self, Function.update_idem, List.append_assoc, List.take_append_drop]
      rw [hcur, hdrop, Function.update_self] at hrun3
      rw [hcontent, Function.update_self, Function.update_idem] at hlays3
      rw [hcontent] at hexact3
      rw [hcur, hdrop] at hcount3
      have hend : (content i).length + n1 + (p.length - n1) = (content i).length + p.length := by omega
      rw [hend] at hrun3 hcount3
      refine ⟨st3, a3, alloc3, ?_, hlays3, hexact3, ?_, hfree3.trans hfree2, ?_⟩
      · unfold Mkfs.appendLoop
        rw [if_neg hp]
        simp only [hn1, hrun, hread, Option.bind_eq_bind, Option.bind_some, if_neg (Nat.not_le.mpr hfbn)]
        exact hrun3
      · rw [htake] at hcount2
        omega
      · intro b hb
        rw [hmeta3 b hb, hmeta2 b hb]

end Pass

end Xv6
