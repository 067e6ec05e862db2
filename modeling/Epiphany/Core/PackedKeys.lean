import Epiphany.Core.CellStore
/-!
# Packed keys — the layout in machine words

The layout of a cube counts bits in 32-bit words and packs a coordinate into
one word of 64. A shift by the whole word or more is a fault, an offset stops
at the largest word. Where the layout is narrow none of this happens, and the
words are the numbers of `Layout` (`pack_eq`, `component_eq`); so a key gives
each index back, and two coordinates never share one (`faithful`).
-/

namespace Epiphany

/-! ## Words -/

/-- Addition that stops at the largest word. -/
def saturatingAdd (a b : BitVec 32) : BitVec 32 :=
  if a.toNat + b.toNat < 2 ^ 32 then a + b else BitVec.allOnes 32

/-- A shift to the left; a shift by the whole word or more is a fault. -/
def shiftLeftWord (x : BitVec 64) (bits : BitVec 32) : Option (BitVec 64) :=
  if bits.toNat < 64 then some (x <<< bits.toNat) else none

def shiftRightWord (x : BitVec 64) (bits : BitVec 32) : Option (BitVec 64) :=
  if bits.toNat < 64 then some (x >>> bits.toNat) else none

/-- Bits for the indices below `len`, at least one. -/
def bitsForWord (len : BitVec 32) : BitVec 32 :=
  if len.toNat ≤ 1 then 1 else 32 - (len - 1).clz

theorem toNat_saturatingAdd (a b : BitVec 32) :
    (saturatingAdd a b).toNat = min (a.toNat + b.toNat) (2 ^ 32 - 1) := by
  unfold saturatingAdd
  split_ifs with h
  · rw [BitVec.toNat_add, Nat.mod_eq_of_lt h]
    omega
  · rw [BitVec.toNat_allOnes]
    omega

theorem toNat_sub_clz (x : BitVec 32) : (32 - x.clz).toNat = 32 - x.clz.toNat := by
  rw [BitVec.toNat_sub_of_le (by simpa using BitVec.clz_le (x := x))]
  rfl

theorem toNat_bitsForWord (len : BitVec 32) : (bitsForWord len).toNat = bitsFor len.toNat := by
  unfold bitsForWord bitsFor
  split_ifs with h
  · rfl
  · have hpred : (len - 1).toNat = len.toNat - 1 := by
      refine BitVec.toNat_sub_of_le ?_
      rw [BitVec.le_def]
      exact (Nat.not_le.1 h).le
    have hne : len - 1 ≠ 0#32 := by
      intro heq
      have hzero := congrArg BitVec.toNat heq
      rw [hpred, BitVec.toNat_zero] at hzero
      omega
    have hlt : (len - 1).clz.toNat < 32 := by
      simpa [BitVec.lt_def] using BitVec.clz_lt_iff_ne_zero.2 hne
    -- the top bit of `len - 1` is where either count finds it
    have hlow := BitVec.two_pow_sub_clz_le_toNat_of_ne_zero (by decide) hne
    have hhigh := BitVec.toNat_lt_two_pow_sub_clz (x := len - 1)
    have hlog : Nat.log2 (len.toNat - 1) = 32 - 1 - (len - 1).clz.toNat := by
      rw [Nat.log2_eq_iff (by omega), ← hpred]
      refine ⟨hlow, ?_⟩
      rwa [show 32 - 1 - (len - 1).clz.toNat + 1 = 32 - (len - 1).clz.toNat by omega]
    rw [hlog, toNat_sub_clz]
    omega

theorem toNat_bitsForWord_le (len : BitVec 32) : (bitsForWord len).toNat ≤ 32 := by
  unfold bitsForWord
  split_ifs
  · decide
  · rw [toNat_sub_clz]
    omega

theorem one_le_bitsFor (len : Nat) : 1 ≤ bitsFor len := by
  unfold bitsFor
  split_ifs <;> omega

/-! ## The layout in words -/

structure WordLayout where
  offsets : List (BitVec 32)
  masks : List (BitVec 64)
  narrow : Bool

/-- A coordinate in words has an index below each size. -/
def WithinSizes (sizes coord : List (BitVec 32)) : Prop :=
  List.Forall₂ (fun i len => i.toNat < len.toNat) coord sizes

namespace WordLayout

/-- The offsets of the dimensions from a first one, and where the last ends. -/
def place (offset : BitVec 32) : List (BitVec 32) → List (BitVec 32) × BitVec 32
  | [] => ([], offset)
  | len :: sizes =>
    let rest := place (saturatingAdd offset (bitsForWord len)) sizes
    (offset :: rest.1, rest.2)

/-- The layout of dimensions of these sizes. -/
def new (sizes : List (BitVec 32)) : WordLayout where
  offsets := (place 0 sizes).1
  masks := sizes.map fun len => (1 : BitVec 64) <<< (bitsForWord len).toNat - 1
  narrow := (place 0 sizes).2 ≤ 64

/-- Or the index of one dimension in at its offset. -/
def packAt (l : WordLayout) (key : BitVec 64) (x : BitVec 32 × Nat) : Option (BitVec 64) := do
  let offset ← l.offsets[x.2]?
  let shifted ← shiftLeftWord (x.1.setWidth 64) offset
  some (key ||| shifted)

def pack (l : WordLayout) (coord : List (BitVec 32)) : Option (BitVec 64) :=
  coord.zipIdx.foldlM l.packAt 0

def component (l : WordLayout) (key : BitVec 64) (d : Nat) : Option (BitVec 32) := do
  let offset ← l.offsets[d]?
  let mask ← l.masks[d]?
  let shifted ← shiftRightWord key offset
  some ((shifted &&& mask).setWidth 32)

def unpack (l : WordLayout) (key : BitVec 64) (rank : Nat) : Option (List (BitVec 32)) :=
  (List.range rank).mapM (l.component key)

/-! ## Words and numbers -/

/-- The widths of dimensions of these sizes. -/
def widths (sizes : List (BitVec 32)) : List Nat := sizes.map fun len => bitsFor len.toNat

theorem toNat_place_snd (offset : BitVec 32) (sizes : List (BitVec 32)) :
    (place offset sizes).2.toNat = min (offset.toNat + (widths sizes).sum) (2 ^ 32 - 1) := by
  induction sizes generalizing offset with
  | nil =>
    have := offset.isLt
    simp only [place, widths, List.map_nil, List.sum_nil]
    omega
  | cons len sizes ih =>
    simp only [place, ih, toNat_saturatingAdd, toNat_bitsForWord, widths, List.map_cons,
      List.sum_cons]
    omega

theorem narrow_iff (sizes : List (BitVec 32)) :
    (new sizes).narrow = true ↔ (widths sizes).sum ≤ 64 := by
  have hlast := toNat_place_snd 0 sizes
  rw [show (0 : BitVec 32).toNat = 0 from rfl] at hlast
  unfold new
  rw [decide_eq_true_eq, BitVec.le_def, hlast, show (64 : BitVec 32).toNat = 64 from rfl]
  omega

/-- No offset saturates where the widths fit. -/
theorem map_place_fst {offset : BitVec 32} {sizes : List (BitVec 32)}
    (h : offset.toNat + (widths sizes).sum ≤ 64) :
    (place offset sizes).1.map BitVec.toNat = BitFields.offsets offset.toNat (widths sizes) := by
  induction sizes generalizing offset with
  | nil => rfl
  | cons len sizes ih =>
    simp only [widths, List.map_cons, List.sum_cons] at h
    have hnext : (saturatingAdd offset (bitsForWord len)).toNat =
        offset.toNat + bitsFor len.toNat := by
      rw [toNat_saturatingAdd, toNat_bitsForWord]
      omega
    have hrest := @ih (saturatingAdd offset (bitsForWord len))
      (by rw [hnext]; simp only [widths]; omega)
    rw [hnext] at hrest
    simp only [place, widths, List.map_cons, BitFields.offsets] at hrest ⊢
    rw [hrest]

theorem toNat_mask (len : BitVec 32) :
    ((1 : BitVec 64) <<< (bitsForWord len).toNat - 1).toNat = 2 ^ bitsFor len.toNat - 1 := by
  have hle := toNat_bitsForWord_le len
  rw [toNat_bitsForWord] at hle ⊢
  have hpow : 2 ^ bitsFor len.toNat < 2 ^ 64 := Nat.pow_lt_pow_right (by decide) (by omega)
  have hshift : ((1 : BitVec 64) <<< bitsFor len.toNat).toNat = 2 ^ bitsFor len.toNat := by
    rw [BitVec.toNat_shiftLeft, show (1 : BitVec 64).toNat = 1 from rfl, Nat.shiftLeft_eq,
      Nat.one_mul, Nat.mod_eq_of_lt hpow]
  rw [BitVec.toNat_sub_of_le, hshift]
  · rfl
  · rw [BitVec.le_def, hshift]
    exact Nat.one_le_two_pow

/-! ## Packing -/

section

variable {sizes coord : List (BitVec 32)}

theorem fields_of_within (h : WithinSizes sizes coord) :
    List.Forall₂ (fun v w => v < 2 ^ w) (coord.map BitVec.toNat) (widths sizes) := by
  unfold widths
  rw [List.forall₂_map_left_iff, List.forall₂_map_right_iff]
  exact h.imp fun _ _ hlt => lt_two_pow_bitsFor hlt

/-- A shifted index stays within the word. -/
theorem toNat_shiftLeftWord {i offset : BitVec 32} {w : Nat} (hi : i.toNat < 2 ^ w) (hw : 1 ≤ w)
    (hend : offset.toNat + w ≤ 64) :
    ∃ x, shiftLeftWord (i.setWidth 64) offset = some x ∧ x.toNat = i.toNat <<< offset.toNat := by
  refine ⟨i.setWidth 64 <<< offset.toNat, if_pos (by omega), ?_⟩
  have hwide : (i.setWidth 64).toNat = i.toNat := BitVec.toNat_setWidth_of_le (by decide)
  rw [BitVec.toNat_shiftLeft, hwide, Nat.mod_eq_of_lt]
  rw [Nat.shiftLeft_eq]
  calc i.toNat * 2 ^ offset.toNat
      < 2 ^ w * 2 ^ offset.toNat := Nat.mul_lt_mul_of_pos_right hi (Nat.two_pow_pos _)
    _ = 2 ^ (w + offset.toNat) := (Nat.pow_add 2 w offset.toNat).symm
    _ ≤ 2 ^ 64 := Nat.pow_le_pow_right (by decide) (by omega)

/-- The loop over the indices is at dimension `k`, whose offset is known. -/
theorem foldlM_packAt {l : WordLayout} (h : WithinSizes sizes coord) {offset : BitVec 32}
    (hsum : offset.toNat + (widths sizes).sum ≤ 64) {k : Nat}
    (hoffsets : ∀ i, l.offsets[k + i]? = (place offset sizes).1[i]?) (key : BitVec 64) :
    ∃ packed, (coord.zipIdx k).foldlM l.packAt key = some packed ∧ packed.toNat =
      ((coord.map BitVec.toNat).zip (BitFields.offsets offset.toNat (widths sizes))).foldl
        (fun key x => key ||| x.1 <<< x.2) key.toNat := by
  induction h generalizing offset k key with
  | nil => exact ⟨key, rfl, rfl⟩
  | @cons i len coord sizes hi _ ih =>
    simp only [widths, List.map_cons, List.sum_cons] at hsum
    have hhere : l.offsets[k]? = some offset := hoffsets 0
    obtain ⟨x, hx, hnat⟩ := toNat_shiftLeftWord (lt_two_pow_bitsFor hi) (one_le_bitsFor _)
      (show offset.toNat + bitsFor len.toNat ≤ 64 by omega)
    have hnext : (saturatingAdd offset (bitsForWord len)).toNat =
        offset.toNat + bitsFor len.toNat := by
      rw [toNat_saturatingAdd, toNat_bitsForWord]
      omega
    obtain ⟨packed, hfold, hpacked⟩ := @ih (saturatingAdd offset (bitsForWord len))
      (by rw [hnext]; simp only [widths]; omega) (k + 1)
      (fun j => by rw [Nat.add_assoc, Nat.add_comm 1 j]; exact hoffsets (j + 1)) (key ||| x)
    refine ⟨packed, ?_, ?_⟩
    · rw [List.zipIdx_cons, List.foldlM_cons]
      simp only [packAt, hhere, hx, Option.bind_eq_bind, Option.bind_some]
      exact hfold
    · rw [hpacked, hnext, BitVec.toNat_or, hnat]
      simp only [widths, List.map_cons, BitFields.offsets, List.zip_cons_cons, List.foldl_cons]

variable (hnarrow : (new sizes).narrow = true)

include hnarrow

/-- **A coordinate within the sizes is packed**, into the number it packs to. -/
theorem pack_eq (h : WithinSizes sizes coord) : ∃ key, (new sizes).pack coord = some key ∧
    key.toNat = BitFields.pack (BitFields.offsets 0 (widths sizes)) (coord.map BitVec.toNat) := by
  rw [narrow_iff] at hnarrow
  exact foldlM_packAt h (show (0 : BitVec 32).toNat + _ ≤ 64 by simpa using hnarrow)
    (fun i => by rw [Nat.zero_add]; rfl) 0

/-- **A component is the field** at the offset of its dimension. -/
theorem component_eq {d o : Nat} {len : BitVec 32} (hlen : sizes[d]? = some len)
    (ho : (BitFields.offsets 0 (widths sizes))[d]? = some o) (key : BitVec 64) :
    ∃ v, (new sizes).component key d = some v ∧
      v.toNat = BitFields.field key.toNat o (2 ^ bitsFor len.toNat - 1) := by
  rw [narrow_iff] at hnarrow
  have hwidth : (widths sizes)[d]? = some (bitsFor len.toNat) := by
    simp only [widths, List.getElem?_map, hlen, Option.map_some]
  have hend := BitFields.offset_add_le ho hwidth
  have hone := one_le_bitsFor len.toNat
  have hsmall := toNat_bitsForWord_le len
  rw [toNat_bitsForWord] at hsmall
  have hoffsets := map_place_fst (show (0 : BitVec 32).toNat + (widths sizes).sum ≤ 64 by
    simpa using hnarrow)
  rw [show (0 : BitVec 32).toNat = 0 from rfl] at hoffsets
  rw [← hoffsets, List.getElem?_map, Option.map_eq_some_iff] at ho
  obtain ⟨offset, hoffset, rfl⟩ := ho
  have hmask : (new sizes).masks[d]? = some ((1 : BitVec 64) <<< (bitsForWord len).toNat - 1) := by
    simp only [new, List.getElem?_map, hlen, Option.map_some]
  have hshift : shiftRightWord key offset = some (key >>> offset.toNat) := if_pos (by omega)
  refine ⟨(key >>> offset.toNat &&& ((1 : BitVec 64) <<< (bitsForWord len).toNat - 1)).setWidth 32,
    ?_, ?_⟩
  · unfold component
    rw [show (new sizes).offsets[d]? = some offset from hoffset, hmask]
    simp only [Option.bind_eq_bind, Option.bind_some, hshift]
  · rw [BitVec.toNat_setWidth, BitVec.toNat_and, BitVec.toNat_ushiftRight, toNat_mask]
    -- the mask leaves no more bits than an index has
    refine Nat.mod_eq_of_lt (Nat.lt_of_le_of_lt Nat.and_le_right ?_)
    have hpow : 2 ^ bitsFor len.toNat ≤ 2 ^ 32 := Nat.pow_le_pow_right (by decide) hsmall
    have := Nat.two_pow_pos (bitsFor len.toNat)
    omega

end

/-- Each index is read back from the key of its coordinate. -/
theorem component_pack {sizes coord : List (BitVec 32)} (hnarrow : (new sizes).narrow = true)
    (h : WithinSizes sizes coord) {key : BitVec 64} (hkey : (new sizes).pack coord = some key)
    {d : Nat} {i : BitVec 32} (hi : coord[d]? = some i) :
    (new sizes).component key d = some i := by
  obtain ⟨packed, hpacked, hnat⟩ := pack_eq hnarrow h
  obtain rfl := Option.some.inj (hpacked.symm.trans hkey)
  have hd : d < sizes.length := by
    rw [← List.Forall₂.length_eq h]
    exact (List.getElem?_eq_some_iff.1 hi).1
  have hlen : sizes[d]? = some sizes[d] := List.getElem?_eq_getElem hd
  have hwidth : (widths sizes)[d]? = some (bitsFor sizes[d].toNat) := by
    simp only [widths, List.getElem?_map, hlen, Option.map_some]
  have hd' : d < (BitFields.offsets 0 (widths sizes)).length := by
    rw [BitFields.length_offsets, widths, List.length_map]
    exact hd
  have ho := List.getElem?_eq_getElem hd'
  obtain ⟨v, hv, hfield⟩ := component_eq hnarrow hlen ho packed
  rw [hnat, BitFields.field_pack (fields_of_within h) (by rw [List.getElem?_map, hi]; rfl) hwidth
    ho] at hfield
  rw [hv, BitVec.eq_of_toNat_eq hfield]

theorem unpack_pack {sizes coord : List (BitVec 32)} (hnarrow : (new sizes).narrow = true)
    (h : WithinSizes sizes coord) {key : BitVec 64} (hkey : (new sizes).pack coord = some key) :
    (new sizes).unpack key coord.length = some coord := by
  have hall : coord = (List.range coord.length).map fun d => coord.getD d 0 := by
    refine List.ext_getElem (by simp) fun d hd hd' => ?_
    rw [List.getElem_map, List.getElem_range, List.getD_eq_getElem _ _ hd]
  unfold unpack
  conv_rhs => rw [hall]
  refine mapM_eq_some fun d hd => component_pack hnarrow h hkey ?_
  have hd := List.mem_range.1 hd
  rw [List.getD_eq_getElem _ _ hd, List.getElem?_eq_getElem hd]

/-- **Faithful.** Where the layout is narrow, packing a coordinate within the
sizes is no fault, each index is read back from the key, and no two such
coordinates have the same key. -/
theorem faithful (sizes : List (BitVec 32)) (hnarrow : (new sizes).narrow = true) :
    (∀ coord, WithinSizes sizes coord → ∃ key, (new sizes).pack coord = some key ∧
      ∀ (d : Nat) i, coord[d]? = some i → (new sizes).component key d = some i) ∧
    ∀ coord coord', WithinSizes sizes coord → WithinSizes sizes coord' →
      (new sizes).pack coord = (new sizes).pack coord' → coord = coord' := by
  refine ⟨fun coord h => ?_, fun coord coord' h h' heq => ?_⟩
  · obtain ⟨key, hkey, -⟩ := pack_eq hnarrow h
    exact ⟨key, hkey, fun d i hi => component_pack hnarrow h hkey hi⟩
  · obtain ⟨key, hkey, -⟩ := pack_eq hnarrow h
    have hkey' := heq.symm.trans hkey
    have hlen : coord.length = coord'.length := by
      rw [List.Forall₂.length_eq h, List.Forall₂.length_eq h']
    refine List.ext_getElem hlen fun d hd hd' => ?_
    have hi := component_pack hnarrow h hkey (List.getElem?_eq_getElem hd)
    have hi' := component_pack hnarrow h' hkey' (List.getElem?_eq_getElem hd')
    exact Option.some.inj (hi.symm.trans hi')

/-- Two dimensions of the largest size fill the word. -/
theorem faithful_full :
    (new [BitVec.allOnes 32, BitVec.allOnes 32]).narrow = true ∧
      ∃ key, (new [BitVec.allOnes 32, BitVec.allOnes 32]).pack [7, 0xfffffffe] = some key ∧
        ∀ (d : Nat) i, [7, (0xfffffffe : BitVec 32)][d]? = some i →
          (new [BitVec.allOnes 32, BitVec.allOnes 32]).component key d = some i := by
  have hnarrow : (new [BitVec.allOnes 32, BitVec.allOnes 32]).narrow = true := by decide
  exact ⟨hnarrow, (faithful _ hnarrow).1 _ (by unfold WithinSizes; simp)⟩

/-! ## The numbers of the cell store -/

/-- The words of a narrow layout are the numbers of `Layout`. -/
theorem pack_layout {dims : List Dimension} {coord : List (BitVec 32)}
    (hsizes : ∀ d ∈ dims, d.len < 2 ^ 32)
    (hnarrow : (new (dims.map fun d => BitVec.ofNat 32 d.len)).narrow = true)
    (h : WithinSizes (dims.map fun d => BitVec.ofNat 32 d.len) coord) :
    ∃ key, (new (dims.map fun d => BitVec.ofNat 32 d.len)).pack coord = some key ∧
      key.toNat = (Layout.new dims).pack (coord.map BitVec.toNat) := by
  obtain ⟨key, hkey, hnat⟩ := pack_eq hnarrow h
  refine ⟨key, hkey, hnat.trans ?_⟩
  have hwidths : widths (dims.map fun d => BitVec.ofNat 32 d.len) =
      dims.map fun d => bitsFor d.len := by
    unfold widths
    rw [List.map_map]
    refine List.map_congr_left fun d hd => ?_
    rw [Function.comp_apply, BitVec.toNat_ofNat, Nat.mod_eq_of_lt (hsizes d hd)]
  rw [hwidths]
  rfl

end WordLayout

end Epiphany
