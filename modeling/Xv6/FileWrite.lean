import Mathlib.Order.Interval.Finset.Nat
import Xv6.BlockOwners
import Xv6.Directory

namespace Xv6

open Bytes Prog

variable {din din' : Nat → Dinode} {s s' : Fs} {ip : InodeSlot} {i : Nat}

/-- The bytes src from off on. -/
def patch (off : Nat) (src : List Byte) : Nat → Option Byte :=
  fun k => if off ≤ k then src[k - off]? else none

theorem patch_eq_some {off k : Nat} {src : List Byte} {v : Byte} :
    patch off src k = some v ↔ off ≤ k ∧ src[k - off]? = some v := by
  unfold patch
  split <;> simp_all

theorem patch_eq_none {off k : Nat} {src : List Byte} :
    patch off src k = none ↔ k < off ∨ off + src.length ≤ k := by
  unfold patch
  split
  next h =>
    rw [List.getElem?_eq_none_iff]
    omega
  next h =>
    simp only [true_iff]
    omega

@[simp] theorem patch_nil (off : Nat) : patch off [] = noBytes := by
  funext k
  simp [patch, noBytes]

theorem overlay_patch (off m : Nat) (src : List Byte) :
    overlay (patch off (src.take m)) (patch (off + m) (src.drop m)) = patch off src := by
  funext k
  unfold overlay patch
  by_cases hlow : off ≤ k
  · by_cases hhigh : off + m ≤ k
    · have hidx : m + (k - (off + m)) = k - off := by omega
      have hnone : (src.take m)[k - off]? = none := List.getElem?_eq_none (by simp; omega)
      rw [if_pos hhigh, if_pos hlow, if_pos hlow, List.getElem?_drop, hidx, hnone, Option.or_none]
    · rw [if_neg hhigh, if_pos hlow, if_pos hlow, Option.none_or, List.getElem?_take_of_lt (by omega)]
  · rw [if_neg hlow, if_neg hlow, if_neg (by omega), Option.none_or]

def Fs.setBlock (s : Fs) (b : Nat) (data : DiskBlock) : Fs :=
  { s with disk := Function.update s.disk b data }

theorem Blocks.setData {a bn : Nat} (data : DiskBlock) (h : Blocks s.sb s.disk din)
    (ha : addrOf s.disk din (.data i bn) = a) (hne : a ≠ 0) :
    (∀ r, addrOf (s.setBlock a data).disk din r = addrOf s.disk din r) ∧
      (∀ x < s.sb.dataStart, (s.setBlock a data).disk x = s.disk x) := by
  subst ha
  obtain ⟨hlow, _, _⟩ := h.owned _ hne
  refine ⟨fun r => addrOf_congr (fun j hj => Function.update_of_ne (fun he => ?_) _ _) r,
    fun x hx => ?_⟩
  · cases h.distinct _ _ hj he
  · exact Function.update_of_ne (by omega) _ _

theorem Grew.put {a off : Nat} {src : List Byte} (h : Blocks s.sb s.disk din)
    (hdin : (s.inode ip).din = din i) (ha : addrOf s.disk din (.data i (off / BSIZE)) = a)
    (hne : a ≠ 0) (hfit : off % BSIZE + src.length ≤ BSIZE) :
    Grew ip i ∅ (patch off src) s din (s.setBlock a (Bytes.put (s.disk a) (off % BSIZE) src))
      din := by
  generalize hdata : Bytes.put (s.disk a) (off % BSIZE) src = data
  have hself : (s.setBlock a data).disk a = data := Function.update_self ..
  obtain ⟨haddr, hlow⟩ := h.setData data ha hne
  have hmark : ∀ b < s.sb.size, marked s.sb (s.setBlock a data).disk b = marked s.sb s.disk b :=
    fun b hb => marked_congr (fun x _ hx => hlow x hx) hb
  refine ⟨rfl, fun _ _ => rfl, ⟨(s.inode ip).din.addrs, rfl⟩, ?_, h.congr haddr hmark,
    fun r _ => haddr r, fun r hr => absurd hr (Finset.notMem_empty r), fun r _ => haddr r, ?_, ?_,
    fun x hx => hlow x (Nat.lt_trans hx s.sb.bmapstart_lt),
      fun b _ hb hm => .inl ((hmark b hb).symm.trans hm), ?_⟩
  · show din = Function.update din i (s.inode ip).din
    rw [hdin, Function.update_eq_self]
  · intro j bn k hk hr hW
    by_cases hj : Ref.data j bn = .data i (off / BSIZE)
    · obtain ⟨rfl, rfl⟩ := Ref.data.inj hj
      have hnone := patch_eq_none.mp (hW rfl)
      have hdiv := Nat.div_add_mod' off BSIZE
      rw [ha, hself, ← hdata]
      exact byte_put_outside _ (by omega)
    · have hne' : addrOf s.disk din (.data j bn) ≠ a := fun he => hj (h.distinct _ _ hr (he.trans ha.symm))
      rw [Fs.setBlock]
      dsimp only
      rw [Function.update_of_ne hne']
  · intro k v hv
    obtain ⟨hle, hv⟩ := patch_eq_some.mp hv
    obtain ⟨hlt, _⟩ := List.getElem?_eq_some_iff.mp hv
    have hplace : k / BSIZE = off / BSIZE ∧ k % BSIZE = off % BSIZE + (k - off) := by
      simp only [BSIZE] at *
      omega
    rw [haddr, hplace.1, ha, hself, ← hdata, hplace.2]
    refine ⟨hne, ?_⟩
    rw [byte_put_at _ hlt (by omega), List.getD_eq_getElem?_getD, hv]
    rfl
  · rw [missing, Finset.filter_empty, Finset.card_empty, Nat.add_zero]
    refine congrArg Finset.card (Finset.filter_congr fun b hb => ?_)
    exact (hmark b (Finset.mem_range.mp hb)).congr_left

/-- The blocks of a file that the bytes [off, off + n) are in. -/
def blocksOf (off n : Nat) : Finset Nat := (Finset.Ico off (off + n)).image (· / BSIZE)

/-- The places that a write of n bytes at off needs. -/
def touched (i off n : Nat) : Finset Ref := (blocksOf off n).biUnion (placesOf i)

@[simp] theorem touched_zero (i off : Nat) : touched i off 0 = ∅ := by
  simp [touched, blocksOf]

theorem blocksOf_step {off n m : Nat} (hm : 0 < m) (hmn : m ≤ n) (hfit : off % BSIZE + m ≤ BSIZE) :
    blocksOf off n = {off / BSIZE} ∪ blocksOf (off + m) (n - m) := by
  have hsplit : Finset.Ico off (off + n) =
      Finset.Ico off (off + m) ∪ Finset.Ico (off + m) (off + m + (n - m)) := by
    rw [Finset.Ico_union_Ico_eq_Ico (by omega) (by omega)]
    congr 1
    omega
  have hfirst : (Finset.Ico off (off + m)).image (· / BSIZE) = {off / BSIZE} := by
    ext bn
    simp only [Finset.mem_image, Finset.mem_Ico, Finset.mem_singleton]
    constructor
    · rintro ⟨k, ⟨hlo, hhi⟩, rfl⟩
      simp only [BSIZE] at *
      omega
    · rintro rfl
      exact ⟨off, ⟨Nat.le_refl _, by omega⟩, rfl⟩
  unfold blocksOf
  rw [hsplit, Finset.image_union, hfirst]

theorem touched_step {off n m : Nat} (hm : 0 < m) (hmn : m ≤ n) (hfit : off % BSIZE + m ≤ BSIZE) :
    touched i off n = placesOf i (off / BSIZE) ∪ touched i (off + m) (n - m) := by
  unfold touched
  rw [blocksOf_step hm hmn hfit, Finset.union_biUnion, Finset.singleton_biUnion]

theorem Grew.nil (off : Nat) (h : Blocks s.sb s.disk din) (hdin : (s.inode ip).din = din i) :
    Grew ip i (touched i off 0) (patch off []) s din s din := by
  rw [touched_zero, patch_nil]
  exact Grew.refl h hdin fun r hr => absurd hr (Finset.notMem_empty r)

theorem writeChunks_wp (fuel off : Nat) (src : List Byte) (h : Blocks s.sb s.disk din)
    (hdin : (s.inode ip).din = din i) (hfuel : src.length ≤ fuel)
    (hmax : off + src.length ≤ MAXFILE * BSIZE) :
    (writeChunks ip (chunks fuel off src.length) src).wp
      (fun _ s' => ∃ din', Grew ip i (touched i off src.length) (patch off src) s din s' din')
      (fun e _ => s.Short din (touched i off src.length) e) s := by
  induction fuel generalizing off src s din with
  | zero =>
    obtain rfl : src = [] := List.length_eq_zero_iff.mp (Nat.le_zero.mp hfuel)
    exact ⟨din, .nil off h hdin⟩
  | succ fuel ih =>
    by_cases hn : src.length = 0
    · obtain rfl : src = [] := List.length_eq_zero_iff.mp hn
      exact ⟨din, .nil off h hdin⟩
    · obtain ⟨hm0, hmn, hmb⟩ := chunk_bounds off hn
      rw [chunks, if_neg hn]
      generalize min src.length (BSIZE - off % BSIZE) = m at *
      have hbn : off / BSIZE < MAXFILE := by
        simp only [MAXFILE, NDIRECT, NINDIRECT, BSIZE] at *
        omega
      have hlen : (src.take m).length = m := by
        rw [List.length_take]
        omega
      rw [touched_step hm0 hmn hmb]
      refine wp_bind.mpr (wp_mono (bmap_wp h hdin hbn) ?_ fun e _ he => he.mono Finset.subset_union_left)
      rintro _ s₁ ⟨din₁, rfl, h₁⟩
      have hblock := h₁.filled _ mem_placesOf
      obtain ⟨_, hbound, _⟩ := h₁.blocks.owned _ hblock
      have hsize := h₁.blocks.ok.size
      have hput : off % BSIZE + (src.take m).length ≤ BSIZE := by omega
      have h₂ := h₁.trans (Grew.put h₁.blocks h₁.inodeDin rfl hblock hput)
      rw [Finset.union_empty, overlay_noBytes] at h₂
      have hdrop : (src.drop m).length = src.length - m := List.length_drop
      have hrest := ih (off + m) (src.drop m) h₂.blocks h₁.inodeDin (by omega) (by omega)
      rw [hdrop] at hrest
      refine wp_bind.mpr (readBlock_wp (by omega) (wp_bind.mpr (wp_modify.mpr ?_)))
      refine wp_mono hrest ?_ fun e _ he => h₂.short he
      rintro _ s' ⟨din', h'⟩
      have htotal := h₂.trans h'
      rw [overlay_patch] at htotal
      exact ⟨din', htotal⟩

end Xv6
